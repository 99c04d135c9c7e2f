import GCode.Field.Basic
import GCode.Proofs.Number.Form

/-!
# The arguments of a field, case by case

What `Field.read?` finds behind a word is settled by three cases: a quote behind blanks, a number,
or neither.

* `Field.read?_cons_of_quote`, `Field.read?_cons_of_number`, `Field.read?_cons_of_none`: what is
  read in each of them.
* `Field.exists_of_read?`: a field that has been read comes from one of them.
* `Field.exists_number_of_read?`: the number of a field with a numeric kind.
-/

namespace GCode

open Text

def ArgumentKind.isNumeric (kind : ArgumentKind) : Bool :=
  kind = .integer || kind = .realCompact || kind = .realSpaced

namespace Field

variable {settings : Settings} {letter : Char} {line gap rest tail : List Char}

theorem isBlank_eq_false_of_isWord (h : isWord letter = true) : isBlank letter = false := by
  cases hb : isBlank letter with
  | false => rfl
  | true =>
      simp only [isBlank, Bool.or_eq_true, decide_eq_true_eq] at hb
      rcases hb with rfl | rfl <;> exact absurd h (by decide)

theorem readArgument?_of_quote (hg : IsRun isBlank gap) (text : List Char) :
    readArgument? settings (gap ++ quote :: text) =
      some (.quoted gap (Literal.read settings.apostropheEscape text).1 settings.apostropheEscape,
        (Literal.read settings.apostropheEscape text).2) := by
  have hq : Stops isBlank (quote :: text) := stops_cons.2 (by decide)
  rw [readArgument?, dropBlanks_append hg hq, takeBlanks_append hg hq]
  rfl

theorem readArgument?_of_stops (hs : Stops (· = quote) (dropBlanks rest))
    (hne : dropBlanks rest ≠ []) :
    readArgument? settings rest =
      (Number.read? rest).map fun (n, tail) => (.number n (n.scaled? settings), tail) := by
  unfold readArgument?
  split
  next h => exact absurd h hne
  next c text h =>
    rw [h] at hs
    rw [if_neg (by simpa using stops_cons.1 hs)]

theorem readArgument?_of_number {n : Number} (h : Number.read? rest = some (n, tail)) :
    readArgument? settings rest = some (.number n (n.scaled? settings), tail) := by
  obtain ⟨hw, -, rfl⟩ := Number.read?_eq_some_iff.1 h
  have hs : Stops (· = quote) (dropBlanks (n.text ++ tail)) := by
    rw [(hw.dropBlanks_text_append tail).1]
    exact hw.stops_argument (decide_eq_false_of_class (by decide))
      (decide_eq_false_of_class (by decide)) (by decide) tail
  have hne : dropBlanks (n.text ++ tail) ≠ [] := by
    rw [(hw.dropBlanks_text_append tail).1]
    simp [hw.argument_ne_nil]
  rw [readArgument?_of_stops hs hne, h]
  rfl

theorem exists_quote_or_stops (rest : List Char) :
    (∃ gap text, IsRun isBlank gap ∧ rest = gap ++ quote :: text) ∨
      Stops (· = quote) (dropBlanks rest) := by
  cases hd : dropBlanks rest with
  | nil => exact .inr stops_nil
  | cons c text =>
      by_cases hc : c = quote
      · refine .inl ⟨takeBlanks rest, text, isRun_takeBlanks rest, ?_⟩
        rw [← hc, ← hd, takeBlanks_append_dropBlanks]
      · exact .inr (stops_cons.2 (decide_eq_false hc))

/-! ## Reading a field -/

theorem read?_cons_of_noWord (hl : ¬isWord letter = true) :
    read? settings (letter :: rest) = none := by
  rw [read?, read, if_neg hl]
  rfl

theorem read?_cons_of_quote (settings : Settings) (hl : isWord letter = true)
    (hg : IsRun isBlank gap) (text : List Char) :
    read? settings (letter :: (gap ++ quote :: text)) =
      some (⟨letter, settings.letterCase.apply letter,
        .quoted gap (Literal.read settings.apostropheEscape text).1 settings.apostropheEscape⟩,
        (Literal.read settings.apostropheEscape text).2) := by
  rw [read?, read, if_pos hl]
  simp only [readArgument?_of_quote hg, Option.map_some]

theorem read?_cons_of_number {n : Number} (hl : isWord letter = true)
    (h : Number.read? rest = some (n, tail)) :
    read? settings (letter :: rest) =
      some (⟨letter, settings.letterCase.apply letter, .number n (n.scaled? settings)⟩, tail) := by
  rw [read?, read, if_pos hl]
  simp only [readArgument?_of_number h, Option.map_some]

/-- Without an argument a word is a field if nothing touches it. -/
theorem read?_cons_of_none (hl : isWord letter = true) (hs : Stops (· = quote) (dropBlanks rest))
    (h : Number.read? rest = none) :
    read? settings (letter :: rest) =
      if rest = [] ∨ takeBlanks rest ≠ [] then
        some (⟨letter, settings.letterCase.apply letter, .absent⟩, rest)
      else none := by
  rw [read?, read, if_pos hl]
  by_cases hne : dropBlanks rest = []
  · have ha : readArgument? settings rest = some (.absent, rest) := by
      simp only [readArgument?, hne]
    have hr := takeBlanks_append_dropBlanks rest
    rw [hne, List.append_nil] at hr
    have hc : rest = [] ∨ takeBlanks rest ≠ [] := by
      rw [hr]
      exact Classical.em _
    simp only [ha, Option.map_some, if_pos hc]
  · have hrest : rest ≠ [] := by
      rintro rfl
      exact hne rfl
    simp only [readArgument?_of_stops hs hne, h, Option.map_none, hrest, false_or]
    by_cases hb : takeBlanks rest = [] <;> simp [hb]

theorem read?_cons_eq_none_iff (hl : isWord letter = true) :
    read? settings (letter :: rest) = none ↔
      Stops (· = quote) (dropBlanks rest) ∧ Number.read? rest = none ∧
        ¬(rest = [] ∨ takeBlanks rest ≠ []) := by
  rcases exists_quote_or_stops rest with ⟨gap, text, hg, rfl⟩ | hs
  · have hdrop : dropBlanks (gap ++ quote :: text) = quote :: text :=
      dropBlanks_append hg (stops_cons.2 (by decide))
    rw [read?_cons_of_quote settings hl hg, hdrop, stops_cons]
    simp
  · cases hn : Number.read? rest with
    | some r =>
        rw [read?_cons_of_number hl hn]
        simp
    | none =>
        rw [read?_cons_of_none hl hs hn]
        simp [hs]

/-- **Every field comes from a quote, from a number, or from neither.** -/
theorem exists_of_read? {field : Field} (h : read? settings line = some (field, tail)) :
    ∃ rest, line = field.letter :: rest ∧ isWord field.letter = true ∧
      field.word = settings.letterCase.apply field.letter ∧
      ((∃ gap text, IsRun isBlank gap ∧ rest = gap ++ quote :: text ∧
          field.argument = .quoted gap (Literal.read settings.apostropheEscape text).1
            settings.apostropheEscape ∧
          tail = (Literal.read settings.apostropheEscape text).2) ∨
        (∃ n, Number.read? rest = some (n, tail) ∧
          field.argument = .number n (n.scaled? settings)) ∨
        (field.argument = .absent ∧ tail = rest)) := by
  cases line with
  | nil => cases h
  | cons letter rest =>
      by_cases hl : isWord letter = true
      · rcases exists_quote_or_stops rest with ⟨gap, text, hg, rfl⟩ | hs
        · rw [read?_cons_of_quote settings hl hg] at h
          cases h
          exact ⟨_, rfl, hl, rfl, .inl ⟨gap, text, hg, rfl, rfl, rfl⟩⟩
        · cases hn : Number.read? rest with
          | none =>
              rw [read?_cons_of_none hl hs hn] at h
              split at h
              next =>
                cases h
                exact ⟨_, rfl, hl, rfl, .inr (.inr ⟨rfl, rfl⟩)⟩
              next => cases h
          | some r =>
              obtain ⟨n, tail'⟩ := r
              rw [read?_cons_of_number hl hn] at h
              cases h
              exact ⟨_, rfl, hl, rfl, .inr (.inl ⟨n, hn, rfl⟩)⟩
      · rw [read?_cons_of_noWord hl] at h
        cases h

theorem isNumeric_kind_iff {field : Field} :
    field.kind.isNumeric = true ↔ ∃ n scaled, field.argument = .number n scaled := by
  obtain ⟨letter, word, argument⟩ := field
  cases argument with
  | absent => simp [kind, Argument.kind, ArgumentKind.isNumeric]
  | number n scaled =>
      simp only [kind, Argument.kind, ArgumentKind.isNumeric]
      split
      · simp
      · split <;> simp
  | quoted gap literal apostropheEscape =>
      simp only [kind, Argument.kind, ArgumentKind.isNumeric]
      split
      · split <;> simp
      · split <;> simp

theorem exists_number_of_read? {field : Field} (h : read? settings line = some (field, tail))
    (hk : field.kind.isNumeric = true) :
    ∃ rest n, line = field.letter :: rest ∧ isWord field.letter = true ∧
      field.word = settings.letterCase.apply field.letter ∧ Number.read? rest = some (n, tail) ∧
      field.argument = .number n (n.scaled? settings) := by
  obtain ⟨n, scaled, ha⟩ := isNumeric_kind_iff.1 hk
  obtain ⟨rest, hline, hl, hw, ⟨gap, text, -, -, hq, -⟩ | ⟨n', hr, hn⟩ | ⟨hb, -⟩⟩ :=
    exists_of_read? h
  · rw [ha] at hq
    cases hq
  · exact ⟨rest, n', hline, hl, hw, hr, hn⟩
  · rw [ha] at hb
    cases hb

end Field
end GCode
