import GCode.Proofs.Command.Iteration
import GCode.Proofs.Settings.LetterCase

/-!
# Looking up the fields of a command

A field is looked up by its word, in the letter case of the settings. What is found is the first
field with that word that a cursor of the command gives, and what stands behind the first text that
is no field is never found. Where there is no such field, a reading falls back on its default; a
field that is there but does not fit the reading is an error all the same.

* `Command.field?_eq_some_iff`, `Command.field?_eq_none_iff`: a lookup against the calls of a cursor.
* `Command.exists_body_eq_of_field?`: what is found stands before the remainder of the command.
* `Command.fieldOr_eq_iff`: what becomes of a literal default.
* `Command.lookups_agree`: all of it together, for every word, default and literal.
-/

namespace GCode

open Text

variable {settings : Settings} {text gap rest : List Char} {fields : List PlacedField}

theorem Cursor.Cut.exists_text_eq_of_mem (h : Cut settings text fields gap rest)
    {placed : PlacedField} (hm : placed ∈ fields) :
    ∃ front back, text = front ++ (placed.field.raw ++ (back ++ rest)) ∧
      Field.read? settings (placed.field.raw ++ (back ++ rest)) =
        some (placed.field, back ++ rest) := by
  induction h with
  | done => cases hm
  | @field gap₁ tail gap rest field fields hg hr hcut ih =>
      rcases List.mem_cons.1 hm with rfl | hm
      · have htail := hcut.text_eq
        rw [← List.append_assoc] at htail
        exact ⟨gap₁, fields.flatMap PlacedField.text ++ gap, by rw [← htail], by rw [← htail, hr]⟩
      · obtain ⟨front, back, htail, hread⟩ := ih hm
        refine ⟨gap₁ ++ (field.raw ++ front), back, ?_, hread⟩
        rw [htail, List.append_assoc, List.append_assoc]

/-- What a literal gives in place of a field with a word: the field that it is, if it is one with
that word and nothing else. A literal with such a field at its head and more behind it is refused for
the bytes of its tail, and every other literal for the word. -/
inductive LiteralGives (settings : Settings) (literal : List Char) (word : Char) :
    Except Error Field → Prop
  | whole {field : Field} : Field.read? settings literal = some (field, []) → field.word = word →
      LiteralGives settings literal word (.ok field)
  | tail {field : Field} {tail : List Char} : Field.read? settings literal = some (field, tail) →
      field.word = word → tail ≠ [] →
      LiteralGives settings literal word (.error (.defaultTail (toBytes tail).length))
  | otherWord : (∀ field tail, Field.read? settings literal = some (field, tail) →
        field.word ≠ word) →
      LiteralGives settings literal word (.error (.defaultWord word))

namespace Command

variable {command : Command} {word c : Char} {field : Field} {literal : List Char}

/-! ## The first field with a word -/

theorem next_after_cursor (command : Command) (k : Nat) :
    (command.cursor.after k).next.1 = command.fields[k]? := by
  obtain ⟨fields, gap, rest, hcut, hfields, -⟩ := command.exists_cut_fields
  rw [hfields, List.getElem?_map]
  exact hcut.next_after k

def IsFirst (command : Command) (word : Char) (field : Field) : Prop :=
  ∃ k, (command.cursor.after k).next.1 = some field ∧ field.word = word ∧
    ∀ j < k, ∀ earlier ∈ (command.cursor.after j).next.1, earlier.word ≠ word

def Lacks (command : Command) (word : Char) : Prop :=
  ∀ k, ∀ field ∈ (command.cursor.after k).next.1, field.word ≠ word

/-- **A lookup finds the first field with its word.** -/
theorem field?_eq_some_iff :
    command.field? c = some field ↔ command.IsFirst (command.wordOf c) field := by
  simp only [field?, IsFirst, next_after_cursor, List.find?_eq_some_iff_getElem, decide_eq_true_eq]
  constructor
  · rintro ⟨hword, k, hk, hfield, hearlier⟩
    refine ⟨k, List.getElem?_eq_some_iff.2 ⟨hk, hfield⟩, hword, ?_⟩
    intro j hj earlier hm
    obtain ⟨hlt, rfl⟩ := List.getElem?_eq_some_iff.1 hm
    simpa using hearlier j hj
  · rintro ⟨k, hget, hword, hearlier⟩
    obtain ⟨hk, hfield⟩ := List.getElem?_eq_some_iff.1 hget
    refine ⟨hword, k, hk, hfield, ?_⟩
    intro j hj
    have hne := hearlier j hj _ (List.getElem?_eq_getElem (Nat.lt_trans hj hk))
    simpa using hne

/-- **A lookup finds nothing exactly if no field has its word.** -/
theorem field?_eq_none_iff : command.field? c = none ↔ command.Lacks (command.wordOf c) := by
  simp only [field?, Lacks, next_after_cursor, List.find?_eq_none, decide_eq_true_eq]
  constructor
  · intro h k field hget
    exact h field (List.mem_of_getElem? hget)
  · intro h field hm
    obtain ⟨k, hget⟩ := List.mem_iff_getElem?.1 hm
    exact h k field hget

/-- **What is found stands before the remainder**, and is the field that is read at its place. -/
theorem exists_body_eq_of_field? (h : command.field? c = some field) :
    ∃ front back, command.body = front ++ (field.raw ++ (back ++ command.remainder)) ∧
      Field.read? command.settings (field.raw ++ (back ++ command.remainder)) =
        some (field, back ++ command.remainder) := by
  have hm : field ∈ command.fields := List.mem_of_find?_eq_some h
  obtain ⟨fields, gap, rest, hcut, hfields, hrest⟩ := command.exists_cut_fields
  rw [hfields] at hm
  obtain ⟨placed, hplaced, rfl⟩ := List.mem_map.1 hm
  rw [hrest]
  exact hcut.exists_text_eq_of_mem hplaced

/-! ## Defaults -/

theorem fieldOr_of_some (h : command.field? c = some field) (literal : List Char) :
    command.fieldOr c literal = .ok field := by
  rw [fieldOr, h]

theorem literalGives_fieldOr (h : command.field? c = none) (literal : List Char) :
    LiteralGives command.settings literal (command.wordOf c) (command.fieldOr c literal) := by
  rw [fieldOr, h]
  cases hr : Field.read? command.settings literal with
  | none => exact .otherWord fun field tail hsome => by rw [hr] at hsome; cases hsome
  | some r =>
      obtain ⟨field, tail⟩ := r
      by_cases hw : field.word = command.wordOf c
      · by_cases ht : tail = []
        · subst ht
          simp only [if_pos hw, if_true]
          exact .whole hr hw
        · simp only [if_pos hw, if_neg ht, ← length_toBytes_eq]
          exact .tail hr hw ht
      · simp only [if_neg hw]
        refine .otherWord fun field' tail' hsome => ?_
        rw [hr] at hsome
        cases hsome
        exact hw

/-- **A literal stands in for a field that is not there**: as that field if it is one and nothing
else, and with an error otherwise. -/
theorem fieldOr_eq_iff (h : command.field? c = none) {result : Except Error Field} :
    command.fieldOr c literal = result ↔
      LiteralGives command.settings literal (command.wordOf c) result := by
  constructor
  · rintro rfl
    exact literalGives_fieldOr h literal
  · intro hgives
    cases hgives with
    | whole hr hw => simp only [fieldOr, h, hr, if_pos hw, if_true]
    | tail hr hw ht => simp only [fieldOr, h, hr, if_pos hw, if_neg ht, length_toBytes_eq]
    | otherWord hn =>
        cases hr : Field.read? command.settings literal with
        | none => simp only [fieldOr, h, hr]
        | some r => simp only [fieldOr, h, hr, if_neg (hn r.1 r.2 hr)]

/-! ## All lookups -/

theorem wordOf_otherCase (h : command.settings.letterCase ≠ .keep) (c : Char) :
    command.wordOf (otherCase c) = command.wordOf c :=
  LetterCase.apply_otherCase h c

/-- **Lookups agree with the calls of a cursor.** A field is found exactly if it is the first one with
the word, and none exactly if there is no field with the word; what is found stands before the
remainder, where there is no field. A number is the one of that field, errors included, and the
default only if there is no field; neither does a literal matter unless there is none. Except where
letters are kept as they are, all of this is the same for both cases of a letter. -/
theorem lookups_agree (command : Command) (c : Char) (default : Int32) (literal : List Char) :
    (∀ field, command.field? c = some field ↔ command.IsFirst (command.wordOf c) field) ∧
      (command.field? c = none ↔ command.Lacks (command.wordOf c)) ∧
      (∀ field, command.IsFirst (command.wordOf c) field →
        (∃ front back, command.body = front ++ (field.raw ++ (back ++ command.remainder))) ∧
        command.integerOr c default = field.integer ∧
        command.scaledOr c default = field.scaled ∧
        command.fieldOr c literal = .ok field) ∧
      Field.read? command.settings command.remainder = none ∧
      (command.Lacks (command.wordOf c) →
        command.integerOr c default = .ok default ∧
        command.scaledOr c default = .ok default ∧
        ∀ result, command.fieldOr c literal = result ↔
          LiteralGives command.settings literal (command.wordOf c) result) ∧
      (command.settings.letterCase ≠ .keep →
        command.field? (otherCase c) = command.field? c ∧
        command.integerOr (otherCase c) default = command.integerOr c default ∧
        command.scaledOr (otherCase c) default = command.scaledOr c default ∧
        command.fieldOr (otherCase c) literal = command.fieldOr c literal) := by
  refine ⟨fun field => field?_eq_some_iff, field?_eq_none_iff, ?_, ?_, ?_, ?_⟩
  · intro field hfirst
    have hfound : command.field? c = some field := field?_eq_some_iff.2 hfirst
    obtain ⟨front, back, hbody, -⟩ := exists_body_eq_of_field? hfound
    exact ⟨⟨front, back, hbody⟩, by rw [integerOr, hfound], by rw [scaledOr, hfound],
      fieldOr_of_some hfound literal⟩
  · obtain ⟨fields, gap, rest, hcut, -, hrest⟩ := command.exists_cut_fields
    rw [hrest]
    exact hcut.rest_spec.2.2
  · intro hlacks
    have hnone : command.field? c = none := field?_eq_none_iff.2 hlacks
    exact ⟨by rw [integerOr, hnone], by rw [scaledOr, hnone], fun _ => fieldOr_eq_iff hnone⟩
  · intro hcase
    have hword := wordOf_otherCase hcase c
    have hfield : command.field? (otherCase c) = command.field? c := by
      rw [field?, field?, hword]
    refine ⟨hfield, ?_, ?_, ?_⟩
    · rw [integerOr, integerOr, hfield]
    · rw [scaledOr, scaledOr, hfield]
    · rw [fieldOr, fieldOr, hfield, hword]

/-- A command with a word that comes twice, a word without an argument, and a text that is no field
before a word that is therefore not found. -/
def crowded : Command := ⟨Code.pack 'G' 1 0, "x.5X2 y ;Z3".toList, default⟩

theorem lookups_agree_crowded :
    crowded.IsFirst 'X' ⟨'x', 'X', .number ⟨[], none, [], [], 0, some ⟨[], [], ['5']⟩⟩ (some 0)⟩ ∧
      crowded.Lacks 'Z' ∧ crowded.settings.letterCase ≠ .keep ∧
      crowded.integerOr (otherCase 'X') 7 = .ok 0 ∧
      crowded.integerOr 'y' 7 = .error (.argumentMissing .integer) ∧
      crowded.integerOr 'z' 7 = .ok 7 ∧
      crowded.fieldOr 'z' "z4 \u00e9".toList = .error (.defaultTail 3) := by
  have hcase : crowded.settings.letterCase ≠ .keep := by decide
  have hfirst := ((lookups_agree crowded 'X' 7 []).1 _).1 (by decide +kernel :
    crowded.field? 'X' =
      some ⟨'x', 'X', .number ⟨[], none, [], [], 0, some ⟨[], [], ['5']⟩⟩ (some 0)⟩)
  have hword := ((lookups_agree crowded 'y' 7 []).1 _).1 (by decide +kernel :
    crowded.field? 'y' = some ⟨'y', 'Y', .absent⟩)
  have hlacks := (lookups_agree crowded 'z' 7 []).2.1.1 (by decide +kernel)
  have hread : Field.read? crowded.settings "z4 \u00e9".toList =
      some (⟨'z', 'Z', .number ⟨[], none, [], ['4'], 4, none⟩ (some 4)⟩, " \u00e9".toList) := by
    decide
  obtain ⟨-, -, -, -, hdefault, -⟩ := lookups_agree crowded 'z' 7 "z4 \u00e9".toList
  obtain ⟨hinteger, -, hliteral⟩ := hdefault hlacks
  refine ⟨hfirst, hlacks, hcase, ?_, ((lookups_agree crowded 'y' 7 []).2.2.1 _ hword).2.1,
    hinteger, (hliteral _).2 (.tail hread (by decide) (by decide))⟩
  exact ((lookups_agree crowded 'X' 7 []).2.2.2.2.2 hcase).2.1.trans
    ((lookups_agree crowded 'X' 7 []).2.2.1 _ hfirst).2.1

end Command
end GCode
