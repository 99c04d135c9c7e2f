import GCode.Proofs.Field.Cases
import GCode.Proofs.Literal.Form

/-!
# The form of a field and where it ends

`Field.WellFormed` says what the parts of a field are under some settings, and `Argument.Ends` what
the text after a field cannot start with, or else something longer would have been read. Nothing
else of that text matters, so a field is read again wherever its own text stands.

* `Field.read?_eq_some_iff`: reading gives the field that is well formed, ends before the tail and
  gives back the line together with it.
* `Argument.ends_nil`: every argument ends at the end of a line.
-/

namespace GCode

open Text

namespace Argument

/-- The parts of an argument are what the settings make of them. -/
def WellFormed (settings : Settings) : Argument → Prop
  | .absent => True
  | .number n scaled => n.WellFormed ∧ scaled = n.scaled? settings
  | .quoted gap literal apostropheEscape =>
      IsRun isBlank gap ∧ apostropheEscape = settings.apostropheEscape ∧
        literal.WellFormed apostropheEscape

/-- What may follow an argument. A word without one is touched by nothing, and what stands behind
its blanks is no argument. -/
def Ends : Argument → (tail : List Char) → Prop
  | .absent, tail =>
      (tail = [] ∨ takeBlanks tail ≠ []) ∧ Stops (· = quote) (dropBlanks tail) ∧
        Number.read? tail = none
  | .number n _, tail => n.Ends tail
  | .quoted _ literal _, tail => literal.Ends tail

def isOpen : Argument → Bool
  | .quoted _ literal _ => !literal.isClosed
  | _ => false

theorem Ends.eq_nil {argument : Argument} {tail : List Char} (h : argument.Ends tail)
    (ho : argument.isOpen = true) : tail = [] := by
  cases argument with
  | absent => cases ho
  | number n scaled => cases ho
  | quoted gap literal apostropheEscape => exact Literal.Ends.eq_nil h (by simpa [isOpen] using ho)

theorem ends_nil (argument : Argument) : argument.Ends [] := by
  cases argument with
  | absent => exact ⟨.inl rfl, stops_nil, rfl⟩
  | number n scaled => exact n.ends_nil
  | quoted gap literal apostropheEscape => exact literal.ends_nil

end Argument

namespace Field

variable {settings : Settings} {line tail : List Char} {field : Field}

structure WellFormed (settings : Settings) (field : Field) : Prop where
  isWord : isWord field.letter = true
  word : field.word = settings.letterCase.apply field.letter
  argument : field.argument.WellFormed settings

/-! ## Reading -/

theorem ends_of_absent (h : read? settings (field.letter :: tail) = some (field, tail))
    (hl : Field.isWord field.letter = true) (ha : field.argument = .absent) :
    Argument.absent.Ends tail := by
  rcases exists_quote_or_stops tail with ⟨gap, text, hg, rfl⟩ | hs
  · rw [read?_cons_of_quote settings hl hg] at h
    rw [← (Prod.mk.inj (Option.some.inj h)).1] at ha
    cases ha
  · cases hn : Number.read? tail with
    | some r =>
        rw [read?_cons_of_number hl hn] at h
        rw [← (Prod.mk.inj (Option.some.inj h)).1] at ha
        cases ha
    | none =>
        rw [read?_cons_of_none hl hs hn] at h
        split at h
        next hc => exact ⟨hc, hs, hn⟩
        next => cases h

theorem of_read? (h : read? settings line = some (field, tail)) :
    field.WellFormed settings ∧ field.argument.Ends tail := by
  obtain ⟨rest, rfl, hl, hw, ⟨gap, text, hg, rfl, ha, rfl⟩ | ⟨n, hn, ha⟩ | ⟨ha, rfl⟩⟩ :=
    exists_of_read? h
  · have hform : field.argument.WellFormed settings := by
      rw [ha]
      exact ⟨hg, rfl, Literal.wellFormed_read text⟩
    refine ⟨⟨hl, hw, hform⟩, ?_⟩
    rw [ha]
    exact Literal.ends_read text
  · obtain ⟨hn, he⟩ := Number.of_read? hn
    have hform : field.argument.WellFormed settings := by
      rw [ha]
      exact ⟨hn, rfl⟩
    refine ⟨⟨hl, hw, hform⟩, ?_⟩
    rw [ha]
    exact he
  · have hform : field.argument.WellFormed settings := by
      rw [ha]
      trivial
    refine ⟨⟨hl, hw, hform⟩, ?_⟩
    rw [ha]
    exact ends_of_absent h hl ha

/-- **A field is read again from its own text**, before any tail that it may end before. -/
theorem WellFormed.read?_raw_append (hw : field.WellFormed settings)
    (he : field.argument.Ends tail) : read? settings (field.raw ++ tail) = some (field, tail) := by
  obtain ⟨letter, word, argument⟩ := field
  obtain ⟨hl, hword, ha⟩ := hw
  obtain rfl : word = settings.letterCase.apply letter := hword
  cases argument with
  | absent =>
      obtain ⟨hc, hs, hn⟩ := he
      exact (read?_cons_of_none hl hs hn).trans (if_pos hc)
  | number n scaled =>
      obtain ⟨hn, rfl⟩ := ha
      exact read?_cons_of_number hl (Number.read?_text_append hn he)
  | quoted gap literal apostropheEscape =>
      obtain ⟨hg, rfl, hw⟩ := ha
      have hr := read?_cons_of_quote settings hl hg (literal.text ++ tail)
      rw [hw.read_text_append he] at hr
      simpa [raw, Argument.text] using hr

/-- **The field at the head of a line is the one that is well formed and ends before the tail.** -/
theorem read?_eq_some_iff :
    read? settings line = some (field, tail) ↔
      field.WellFormed settings ∧ field.argument.Ends tail ∧ field.raw ++ tail = line := by
  constructor
  · intro h
    exact ⟨(of_read? h).1, (of_read? h).2, raw_append h⟩
  · rintro ⟨hw, he, rfl⟩
    exact hw.read?_raw_append he

end Field

end GCode
