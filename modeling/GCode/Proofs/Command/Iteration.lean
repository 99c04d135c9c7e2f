import GCode.Command
import GCode.Proofs.Field.Cases
import GCode.Proofs.Text.Bytes

/-!
# The fields of a command, one after another

Reading the fields of a command cuts its body into fields with blanks before them, and ends at the
first place where there is no field. `Cursor.Cut` is that cut, stated of the text alone: each field
is the one that is read at its place.

* `Cursor.exists_cut`: every text has a cut, for every field takes up part of it.
* `Cursor.Cut.after_eq`, `Cursor.Cut.next_after`: where a cursor stands after a number of calls, and
  what it gives then. It gives the fields of the cut in order, and then nothing for ever.
* `Command.fields_cut_body`: all of it together, for the body of a command.
-/

namespace GCode

open Text

structure PlacedField where
  gap : List Char
  field : Field
  deriving DecidableEq, Repr

def PlacedField.text (placed : PlacedField) : List Char := placed.gap ++ placed.field.raw

namespace Field

variable {settings : Settings} {line tail : List Char} {field : Field}

theorem exists_mem_head?_raw (h : read? settings line = some (field, tail)) :
    ∃ c ∈ field.raw.head?, c.isAlpha = true ∨ c = '*' := by
  obtain ⟨-, -, hword, -⟩ := exists_of_read? h
  exact ⟨field.letter, rfl, by simpa [isWord] using hword⟩

theorem stops_of_read? (h : read? settings line = some (field, tail)) : Stops isBlank line := by
  obtain ⟨rest, rfl, hword, -⟩ := exists_of_read? h
  exact stops_cons.2 (isBlank_eq_false_of_isWord hword)

end Field

namespace Cursor

/-- A cursor after it has been asked for a number of fields. -/
def after (cursor : Cursor) : Nat → Cursor
  | 0 => cursor
  | k + 1 => cursor.next.2.after k

/-- How a text is cut into fields. Each stands behind blanks and is what is read at its place;
behind the last one are blanks, and then a text at which no field is read. -/
inductive Cut (settings : Settings) :
    (text : List Char) → List PlacedField → (gap rest : List Char) → Prop
  | done {gap rest : List Char} : IsRun isBlank gap → Stops isBlank rest →
      Field.read? settings rest = none → Cut settings (gap ++ rest) [] gap rest
  | field {gap₁ tail gap rest : List Char} {field : Field} {fields : List PlacedField} :
      IsRun isBlank gap₁ → Field.read? settings (field.raw ++ tail) = some (field, tail) →
      Cut settings tail fields gap rest →
      Cut settings (gap₁ ++ (field.raw ++ tail)) (⟨gap₁, field⟩ :: fields) gap rest

variable {settings : Settings} {text gap rest tail : List Char} {field : Field}
  {fields : List PlacedField}

/-! ## One call -/

theorem next_of_field (hg : IsRun isBlank gap)
    (h : Field.read? settings text = some (field, tail)) :
    next ⟨settings, gap ++ text, false⟩ = (some field, ⟨settings, tail, false⟩) := by
  have hd : dropBlanks (gap ++ text) = text := dropBlanks_append hg (Field.stops_of_read? h)
  simp only [next, hd, Field.read_eq_some_iff.2 h, Bool.false_eq_true, if_false]
  rfl

theorem next_of_noField (hg : IsRun isBlank gap) (hs : Stops isBlank rest)
    (h : Field.read? settings rest = none) :
    next ⟨settings, gap ++ rest, false⟩ = (none, ⟨settings, rest, true⟩) := by
  have hd : dropBlanks (gap ++ rest) = rest := dropBlanks_append hg hs
  simp only [next, hd, Field.read_eq_none_iff.2 h, Bool.false_eq_true, if_false]
  rfl

theorem next_of_isDone (settings : Settings) (rest : List Char) :
    next ⟨settings, rest, true⟩ = (none, ⟨settings, rest, true⟩) :=
  rfl

theorem after_of_isDone (settings : Settings) (rest : List Char) (k : Nat) :
    after ⟨settings, rest, true⟩ k = ⟨settings, rest, true⟩ := by
  induction k with
  | zero => rfl
  | succ k ih =>
      rw [after, next_of_isDone]
      exact ih

theorem readAll_of_field {cursor later : Cursor} (h : cursor.next = (some field, later)) :
    cursor.readAll = (field :: later.readAll.1, later.readAll.2) := by
  rw [readAll]
  split
  next hn =>
    rw [h] at hn
    cases hn
  next hn =>
    rw [h] at hn
    cases hn
    rfl

theorem readAll_of_none {cursor later : Cursor} (h : cursor.next = (none, later)) :
    cursor.readAll = ([], later) := by
  rw [readAll]
  split
  next hn =>
    rw [h] at hn
    cases hn
    rfl
  next hn =>
    rw [h] at hn
    cases hn

/-! ## All calls -/

/-- **Every text has a cut.** The recursion is that of the cursor: each field leaves a shorter
text. -/
theorem exists_cut (settings : Settings) (text : List Char) :
    ∃ fields gap rest, Cut settings text fields gap rest := by
  induction hn : text.length using Nat.strongRecOn generalizing text with
  | ind n ih =>
      have hblank : IsRun isBlank (takeBlanks text) := isRun_takeBlanks text
      have hsplit : takeBlanks text ++ dropBlanks text = text := takeBlanks_append_dropBlanks text
      cases hr : Field.read? settings (dropBlanks text) with
      | none =>
          refine ⟨[], takeBlanks text, dropBlanks text, ?_⟩
          have hcut := Cut.done hblank (stops_dropBlanks text) hr
          rwa [hsplit] at hcut
      | some r =>
          obtain ⟨field, tail⟩ := r
          have hraw : field.raw ++ tail = dropBlanks text := Field.raw_append hr
          have hlt : tail.length < (dropBlanks text).length := Field.length_lt_of_read? hr
          have hle : (dropBlanks text).length ≤ text.length := length_dropBlanks_le text
          obtain ⟨fields, gap, rest, htail⟩ := ih tail.length (by omega) tail rfl
          refine ⟨⟨takeBlanks text, field⟩ :: fields, gap, rest, ?_⟩
          rw [← hraw] at hr
          have hcut := Cut.field hblank hr htail
          rwa [hraw, hsplit] at hcut

namespace Cut

theorem text_eq (h : Cut settings text fields gap rest) :
    text = fields.flatMap PlacedField.text ++ (gap ++ rest) := by
  induction h with
  | done => rfl
  | field hg hr _ ih =>
      rw [List.flatMap_cons, PlacedField.text, List.append_assoc, List.append_assoc, ← ih]

theorem forall_mem (h : Cut settings text fields gap rest) :
    ∀ placed ∈ fields, IsRun isBlank placed.gap ∧
      ∃ c ∈ placed.field.raw.head?, c.isAlpha = true ∨ c = '*' := by
  induction h with
  | done =>
      intro placed hm
      cases hm
  | field hg hr _ ih =>
      intro placed hm
      rcases List.mem_cons.1 hm with rfl | hm
      · exact ⟨hg, Field.exists_mem_head?_raw hr⟩
      · exact ih placed hm

theorem rest_spec (h : Cut settings text fields gap rest) :
    IsRun isBlank gap ∧ Stops isBlank rest ∧ Field.read? settings rest = none := by
  induction h with
  | done hg hs hr => exact ⟨hg, hs, hr⟩
  | field _ _ _ ih => exact ih

theorem length_le (h : Cut settings text fields gap rest) : fields.length ≤ text.length := by
  induction h with
  | done => exact Nat.zero_le _
  | field _ hr _ ih =>
      have hlt := Field.length_lt_of_read? hr
      rw [List.length_cons, List.length_append]
      omega

/-- **Where a cursor stands after a number of calls**: before the fields of the cut that it has not
given yet, and from the first call on that gives none, at the rest. -/
theorem after_eq (h : Cut settings text fields gap rest) (k : Nat) :
    after ⟨settings, text, false⟩ k =
      if k ≤ fields.length then
        ⟨settings, (fields.drop k).flatMap PlacedField.text ++ (gap ++ rest), false⟩
      else ⟨settings, rest, true⟩ := by
  induction h generalizing k with
  | done hg hs hr =>
      cases k with
      | zero => rfl
      | succ k =>
          rw [after, next_of_noField hg hs hr, after_of_isDone, if_neg (by simp)]
  | @field gap₁ tail gap rest field fields hg hr hcut ih =>
      cases k with
      | zero =>
          rw [after, if_pos (Nat.zero_le _), List.drop_zero, ← (Cut.field hg hr hcut).text_eq]
      | succ k =>
          rw [after, next_of_field hg hr, ih k, List.drop_succ_cons]
          simp only [List.length_cons, Nat.add_le_add_iff_right]

/-- **What a cursor gives, call after call**: the fields of the cut in order, then nothing. -/
theorem next_after (h : Cut settings text fields gap rest) (k : Nat) :
    (after ⟨settings, text, false⟩ k).next.1 = fields[k]?.map PlacedField.field := by
  induction h generalizing k with
  | done hg hs hr =>
      cases k with
      | zero => rw [after, next_of_noField hg hs hr, List.getElem?_nil, Option.map_none]
      | succ k =>
          rw [after, next_of_noField hg hs hr, after_of_isDone, next_of_isDone, List.getElem?_nil,
            Option.map_none]
  | field hg hr _ ih =>
      cases k with
      | zero => rw [after, next_of_field hg hr, List.getElem?_cons_zero, Option.map_some]
      | succ k => rw [after, next_of_field hg hr, ih k, List.getElem?_cons_succ]

theorem readAll_eq (h : Cut settings text fields gap rest) :
    readAll ⟨settings, text, false⟩ =
      (fields.map PlacedField.field, ⟨settings, rest, true⟩) := by
  induction h with
  | done hg hs hr => exact readAll_of_none (next_of_noField hg hs hr)
  | field hg hr _ ih =>
      rw [readAll_of_field (next_of_field hg hr), ih]
      rfl

end Cut
end Cursor

namespace Command

theorem exists_cut_fields (command : Command) :
    ∃ fields gap rest, Cursor.Cut command.settings command.body fields gap rest ∧
      command.fields = fields.map PlacedField.field ∧ command.remainder = rest := by
  obtain ⟨fields, gap, rest, hcut⟩ := Cursor.exists_cut command.settings command.body
  have hall := hcut.readAll_eq
  exact ⟨fields, gap, rest, hcut, congrArg Prod.fst hall,
    congrArg (fun r => r.2.remainder) hall⟩

/-- **The fields of a command cut its body.** The body is the fields in their order, each behind
blanks, with blanks and a rest behind them that is no field. The calls of a cursor give these fields
and then nothing for ever, and leave after each call what is behind the fields that it has given. -/
theorem fields_cut_body (command : Command) :
    ∃ (fields : List PlacedField) (gap rest : List Char),
      command.body = fields.flatMap PlacedField.text ++ (gap ++ rest) ∧
      fields.length ≤ byteLength command.body ∧
      (∀ placed ∈ fields, IsRun isBlank placed.gap ∧
        ∃ c ∈ placed.field.raw.head?, c.isAlpha = true ∨ c = '*') ∧
      IsRun isBlank gap ∧ Stops isBlank rest ∧ Field.read? command.settings rest = none ∧
      command.fields = fields.map PlacedField.field ∧ command.remainder = rest ∧
      (∀ k, (command.cursor.after k).next.1 = fields[k]?.map PlacedField.field) ∧
      (∀ k ≤ fields.length, (command.cursor.after k).remainder =
        (fields.drop k).flatMap PlacedField.text ++ (gap ++ rest)) ∧
      ∀ k, fields.length < k → (command.cursor.after k).remainder = rest := by
  obtain ⟨fields, gap, rest, hcut⟩ := Cursor.exists_cut command.settings command.body
  obtain ⟨hgap, hstops, hnone⟩ := hcut.rest_spec
  have hall := hcut.readAll_eq
  have hlength : fields.length ≤ byteLength command.body :=
    Nat.le_trans hcut.length_le (length_le_byteLength command.body)
  refine ⟨fields, gap, rest, hcut.text_eq, hlength, hcut.forall_mem, hgap, hstops, hnone,
    congrArg Prod.fst hall, congrArg (fun r => r.2.remainder) hall, hcut.next_after, ?_, ?_⟩
  · intro k hk
    have hafter := hcut.after_eq k
    rw [if_pos hk] at hafter
    exact congrArg Cursor.remainder hafter
  · intro k hk
    have hafter := hcut.after_eq k
    rw [if_neg (Nat.not_le.2 hk)] at hafter
    exact congrArg Cursor.remainder hafter

end Command
end GCode
