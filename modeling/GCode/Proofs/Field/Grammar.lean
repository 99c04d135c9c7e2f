import GCode.Proofs.Field.Cases
import GCode.Proofs.Literal.Grammar
import GCode.Proofs.Number.Grammar

/-!
# The grammar of fields

`Field.Rule` says what a line starts with, on the text of the line alone: a field with its text, the
form of its argument and the text after it, or no field. The rules of its arguments are
`Literal.Rule` and `Number.Rule`, of which the longest beginning counts.

* `Field.rule_iff`: the field that is read is the one of the rule. In particular there is exactly
  one.
* `Field.edges_of_read?`: a number in a field takes all digits there are and ends with no blank.
-/

namespace GCode

open Text

/-- The forms of an argument that a grammar tells apart: all quoted texts have the same. -/
inductive ArgumentForm
  | bare
  | integer
  | realCompact
  | realSpaced
  | quoted
  deriving DecidableEq, Repr

def ArgumentKind.form : ArgumentKind → ArgumentForm
  | .absent => .bare
  | .integer => .integer
  | .realCompact => .realCompact
  | .realSpaced => .realSpaced
  | .textCompact | .textPlain | .textEscaped | .textEscapedApostrophe => .quoted

namespace Field

/-- The form of a field with a number: an integer unless there is a point, and then a real with or
without blanks. -/
def numberForm (raw : List Char) : ArgumentForm :=
  if '.' ∈ raw then if raw.any isBlank then .realSpaced else .realCompact else .integer

/-- What a line starts with: the text of a field, the form of its argument and the text after it, or
`none` if there is no field. -/
inductive Rule (settings : Settings) :
    (line : List Char) → Option (List Char × ArgumentForm × List Char) → Prop
  | empty : Rule settings [] none
  /-- A field starts with a letter or an asterisk. -/
  | noWord {letter : Char} {rest : List Char} : isWord letter = false →
      Rule settings (letter :: rest) none
  /-- A quote behind blanks starts a quoted text. -/
  | quoted {letter : Char} {gap text literal tail : List Char} : isWord letter = true →
      IsRun isBlank gap →
      IsLongest (fun literal _ => Literal.Rule settings.apostropheEscape literal) text literal
        tail →
      Rule settings (letter :: (gap ++ quote :: text))
        (some (letter :: (gap ++ quote :: literal), .quoted, tail))
  /-- Otherwise a number is taken as far as it goes. -/
  | number {letter : Char} {rest text tail : List Char} : isWord letter = true →
      Stops (· = quote) (dropBlanks rest) → IsLongest Number.Rule rest text tail →
      Rule settings (letter :: rest) (some (letter :: text, numberForm (letter :: text), tail))
  /-- With neither, a word that nothing touches is a field of its own. -/
  | bare {letter : Char} {rest : List Char} : isWord letter = true →
      Stops (· = quote) (dropBlanks rest) →
      (∀ text tail, text ++ tail = rest → ¬Number.Rule text tail) →
      (∀ c ∈ rest.head?, isBlank c = true) →
      Rule settings (letter :: rest) (some ([letter], .bare, rest))
  /-- A word that touches something else is no field. -/
  | glued {letter c : Char} {rest : List Char} : isWord letter = true →
      Stops (· = quote) (dropBlanks (c :: rest)) →
      (∀ text tail, text ++ tail = c :: rest → ¬Number.Rule text tail) → isBlank c = false →
      Rule settings (letter :: c :: rest) none

/-- The text of a field, the form of its argument and the text after it. -/
def cut (field : Field × List Char) : List Char × ArgumentForm × List Char :=
  (field.1.raw, field.1.kind.form, field.2)

variable {settings : Settings} {letter : Char} {line rest text tail : List Char}

theorem ne_point_of_isWord (h : isWord letter = true) : letter ≠ '.' := by
  rintro rfl
  exact absurd h (by decide)

theorem form_kind_number {n : Number} (hw : n.WellFormed) (hl : isWord letter = true)
    (scaled : Option Int32) :
    (Argument.number n scaled).kind.form = numberForm (letter :: n.text) := by
  have hmem : '.' ∈ letter :: n.text ↔ n.point.isSome := by
    rw [← hw.mem_text_iff]
    simp [(ne_point_of_isWord hl).symm]
  have hany : (letter :: n.text).any isBlank = n.isSpaced := by
    simp [Number.isSpaced, isBlank_eq_false_of_isWord hl]
  rw [numberForm, hany]
  cases hp : n.point with
  | none => simp [Argument.kind, ArgumentKind.form, hmem, hp]
  | some p =>
      cases hs : n.isSpaced <;> simp [Argument.kind, ArgumentKind.form, hmem, hp, hs]

theorem form_kind_quoted (gap : List Char) (literal : Literal) (apostropheEscape : Bool) :
    (Argument.quoted gap literal apostropheEscape).kind.form = .quoted := by
  simp only [Argument.kind]
  split
  · split <;> rfl
  · split <;> rfl

/-! ## The rule and the reader agree -/

theorem map_cut_of_quote {gap : List Char} (hl : isWord letter = true) (hg : IsRun isBlank gap)
    (text : List Char) :
    (read? settings (letter :: (gap ++ quote :: text))).map cut =
      some (letter :: (gap ++ quote :: (Literal.read settings.apostropheEscape text).1.text),
        .quoted, (Literal.read settings.apostropheEscape text).2) := by
  rw [read?_cons_of_quote settings hl hg, Option.map_some, cut, kind, form_kind_quoted]
  rfl

theorem map_cut_of_number {n : Number} (hl : isWord letter = true)
    (h : Number.read? rest = some (n, tail)) :
    (read? settings (letter :: rest)).map cut =
      some (letter :: n.text, numberForm (letter :: n.text), tail) := by
  rw [read?_cons_of_number hl h, Option.map_some, cut, kind,
    form_kind_number (Number.read?_eq_some_iff.1 h).1 hl]
  rfl

theorem takeBlanks_ne_nil_iff {c : Char} : takeBlanks (c :: rest) ≠ [] ↔ isBlank c = true := by
  cases hc : isBlank c <;> simp [takeBlanks, hc]

theorem Rule.map_cut {result : Option (List Char × ArgumentForm × List Char)}
    (h : Rule settings line result) : (read? settings line).map cut = result := by
  cases h with
  | empty => rfl
  | noWord hl =>
      rw [read?_cons_of_noWord (by simp [hl])]
      rfl
  -- longest beginnings are unique, so those of the rule are those that are read
  | @quoted letter gap text literal tail hl hg hlong =>
      obtain ⟨ht, hr⟩ := hlong.unique (Literal.isLongest_read text)
      rw [map_cut_of_quote hl hg, ht, hr]
  | @number letter rest text tail hl hs hlong =>
      cases hn : Number.read? rest with
      | none =>
          exact absurd hlong.allowed (Number.read?_eq_none_iff.1 hn _ _ hlong.append_eq)
      | some r =>
          obtain ⟨n, tail'⟩ := r
          obtain ⟨rfl, rfl⟩ := hlong.unique (Number.isLongest_of_read? hn)
          exact map_cut_of_number hl hn
  | @bare letter rest hl hs hno hb =>
      have hn : Number.read? rest = none := Number.read?_eq_none_iff.2 hno
      have hc : rest = [] ∨ takeBlanks rest ≠ [] := by
        cases rest with
        | nil => exact .inl rfl
        | cons c rest => exact .inr (takeBlanks_ne_nil_iff.2 (hb c rfl))
      rw [read?_cons_of_none hl hs hn, if_pos hc]
      rfl
  | @glued letter c rest hl hs hno hb =>
      have hn : Number.read? (c :: rest) = none := Number.read?_eq_none_iff.2 hno
      have hc : ¬(c :: rest = [] ∨ takeBlanks (c :: rest) ≠ []) := by
        rw [takeBlanks_ne_nil_iff, hb]
        simp
      rw [read?_cons_of_none hl hs hn, if_neg hc]
      rfl

theorem exists_rule (settings : Settings) (line : List Char) :
    ∃ result, Rule settings line result := by
  cases line with
  | nil => exact ⟨_, .empty⟩
  | cons letter rest =>
      cases hl : isWord letter with
      | false => exact ⟨_, .noWord hl⟩
      | true =>
          rcases exists_quote_or_stops rest with ⟨gap, text, hg, rfl⟩ | hs
          · exact ⟨_, .quoted hl hg (Literal.isLongest_read text)⟩
          · cases hn : Number.read? rest with
            | some r => exact ⟨_, .number hl hs (Number.isLongest_of_read? hn)⟩
            | none =>
                have hno := Number.read?_eq_none_iff.1 hn
                cases rest with
                | nil => exact ⟨_, .bare hl hs hno (by simp)⟩
                | cons c rest =>
                    cases hb : isBlank c with
                    | false => exact ⟨_, .glued hl hs hno hb⟩
                    | true => exact ⟨_, .bare hl hs hno (by simpa using hb)⟩

/-- **The field that is read is the one of the rule.** -/
theorem rule_iff {result : Option (List Char × ArgumentForm × List Char)} :
    Rule settings line result ↔ (read? settings line).map cut = result := by
  constructor
  · exact Rule.map_cut
  · rintro rfl
    obtain ⟨result, hr⟩ := exists_rule settings line
    rw [hr.map_cut]
    exact hr

/-- A number in a field takes all digits there are, and ends with a digit or with its point. -/
theorem edges_of_read? {field : Field} (h : read? settings line = some (field, tail))
    (hk : field.kind.isNumeric = true) :
    Stops Char.isDigit tail ∧ ∃ c ∈ field.raw.getLast?, c.isDigit = true ∨ c = '.' := by
  obtain ⟨rest, n, -, -, -, hr, ha⟩ := exists_number_of_read? h hk
  obtain ⟨hw, he, -⟩ := Number.read?_eq_some_iff.1 hr
  obtain ⟨c, hc, hlast⟩ := hw.getLast?_text
  refine ⟨he.stops, c, ?_, hlast⟩
  rw [raw, ha, Argument.text, List.getLast?_cons, Option.mem_def.1 hc]
  rfl

/-- **Reading a field follows the grammar, and takes as much as it allows.** What is read is what
the rule says, no character is lost, and a number stops at its last digit or at its point. -/
theorem read?_follows_grammar (settings : Settings) (line : List Char) :
    (∀ result, Rule settings line result ↔ (read? settings line).map cut = result) ∧
      (∀ field tail, read settings line = (some field, tail) → field.raw ++ tail = line) ∧
      (∀ tail, read settings line = (none, tail) → tail = line) ∧
      ∀ field tail, read? settings line = some (field, tail) → field.kind.isNumeric = true →
        Stops Char.isDigit tail ∧ ∃ c ∈ field.raw.getLast?, c.isDigit = true ∨ c = '.' := by
  refine ⟨fun result => rule_iff, ?_, ?_, fun field tail h hk => edges_of_read? h hk⟩
  · intro field tail h
    exact raw_append (read_eq_some_iff.1 h)
  · intro tail h
    exact tail_eq_of_read h

example : (read? {} "X - 1 . 5 Y".toList).map cut =
    some ("X - 1 . 5".toList, .realSpaced, " Y".toList) := by decide

end Field
end GCode
