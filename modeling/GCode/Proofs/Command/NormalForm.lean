import GCode.Proofs.Command.Iteration
import GCode.Proofs.Command.Rendering
import GCode.Proofs.Field.Apart

/-!
# The normal form of a command

The normal form of a command is its code with its fields behind it, each as it was written and one
space apart (`Command.normalText`). Comments, wide gaps and the text that is no field are gone. The
fields are read again all the same, because what follows a field can only be blanks and another
word, or nothing, and no argument goes on there.

* `Cursor.Cut.spaced`: fields put one space apart are cut again into themselves, with no rest.
* `Command.read?_normalText`: the normal form of a command has its code and its fields.
-/

namespace GCode

open Text

def Field.spacedText (fields : List Field) : List Char :=
  fields.flatMap fun field => ' ' :: field.raw

namespace Cursor

variable {settings : Settings} {text gap rest : List Char} {fields : List PlacedField}

theorem readAll_congr {cursor cursor' : Cursor} (h : cursor.next = cursor'.next) :
    cursor.readAll = cursor'.readAll := by
  cases hn : cursor'.next with
  | mk result later =>
      rw [hn] at h
      cases result with
      | none => rw [readAll_of_none h, readAll_of_none hn]
      | some field => rw [readAll_of_field h, readAll_of_field hn]

theorem readAll_dropBlanks (settings : Settings) (text : List Char) :
    readAll ⟨settings, dropBlanks text, false⟩ = readAll ⟨settings, text, false⟩ := by
  have hd : dropBlanks (dropBlanks text) = dropBlanks text :=
    dropBlanks_eq_self (stops_dropBlanks text)
  refine readAll_congr ?_
  simp only [next, hd, Bool.false_eq_true, if_false]

namespace Cut

theorem eq_nil (h : Cut settings [] fields gap rest) : fields = [] :=
  List.length_eq_zero_iff.1 (Nat.le_zero.1 h.length_le)

theorem isApart_spacedText (h : Cut settings text fields gap rest) :
    IsApart (Field.spacedText (fields.map PlacedField.field)) := by
  cases h with
  | done => exact isApart_nil
  | @field _ _ _ _ field fields _ hr _ =>
      have hword : Field.isWord field.letter = true := (Field.of_read? hr).1.isWord
      exact isApart_space (stops_cons.2 (Field.isBlank_eq_false_of_isWord hword))
        (stops_cons.2 (Argument.isFirst_eq_false_of_isWord hword))

/-- **Fields put one space apart are cut again into themselves**, and nothing is left. -/
theorem spaced (h : Cut settings text fields gap rest) :
    Cut settings (Field.spacedText (fields.map PlacedField.field))
      (fields.map fun placed => ⟨[' '], placed.field⟩) [] [] := by
  induction h with
  | done => exact .done isRun_nil stops_nil rfl
  | @field _ _ _ _ field fields _ hr hcut ih =>
      obtain ⟨hw, he⟩ := Field.of_read? hr
      -- an open literal has taken the rest of the line, so no field comes after it
      have hopen : field.argument.isOpen = true →
          Field.spacedText (fields.map PlacedField.field) = [] := by
        intro ho
        rw [he.eq_nil ho] at hcut
        rw [hcut.eq_nil]
        rfl
      have hends := Argument.ends_of_isApart hcut.isApart_spacedText hopen
      exact .field (isRun_cons.2 ⟨by decide, isRun_nil⟩) (hw.read?_raw_append hends) ih

end Cut
end Cursor

namespace Command

variable {settings : Settings} {line : List Char} {command : Command}

/-- A command in normal form: its code, and its fields behind one space each. -/
def normalText (command : Command) : List Char :=
  command.code.text ++ Field.spacedText command.fields

/-- **The normal form of a command is read as its code and its fields**, and nothing is left. -/
theorem read?_normalText (h : read? settings line = some command) :
    ∃ again, read? settings command.normalText = some again ∧ again.code = command.code ∧
      again.fields = command.fields ∧ again.remainder = [] := by
  obtain ⟨word, number, subcode, ha, hc, hcode, -, rfl⟩ := exists_of_read? h
  obtain ⟨fields, gap, rest, hcut, hfields, -⟩ := exists_cut_fields command
  have hapart := hcut.isApart_spacedText
  rw [← hfields] at hapart
  have hnumber := Number.read?_text_append (Code.wellFormed_written number subcode)
    (Number.ends_of_isApart hapart)
  have hread : read? command.settings command.normalText =
      some ⟨command.code, dropBlanks (Field.spacedText command.fields), command.settings⟩ := by
    rw [normalText, hcode, read?_text_append ha hc hnumber, Field.codeOf_written,
      if_pos (Code.isValid_pack_iff.2 (toNat_of_isAlpha ha))]
  have hall := hcut.spaced.readAll_eq
  rw [← Cursor.readAll_dropBlanks, ← hfields] at hall
  refine ⟨_, hread, rfl, ?_, ?_⟩
  · rw [Command.fields, cursor, hall, hfields, List.map_map]
    rfl
  · rw [remainder, cursor, hall]

/-- Fields of all kinds with a comment, wide gaps and an open end around them. -/
def wide : Command :=
  ⟨Code.pack 'G' 1 0, "x- 1 . Y\t*\"q\"\"\"  z ; end".toList, { scale := 2 }⟩

theorem read?_normalText_wide :
    read? { scale := 2 } "(a) g+01x- 1 . Y\t*\"q\"\"\"  z ; end".toList = some wide ∧
      wide.normalText = "G1 x- 1 . Y *\"q\"\"\" z".toList ∧
      ∃ again, read? { scale := 2 } wide.normalText = some again ∧ again.code = wide.code ∧
        again.fields = wide.fields ∧ again.remainder = [] :=
  have h : read? { scale := 2 } "(a) g+01x- 1 . Y\t*\"q\"\"\"  z ; end".toList = some wide := by
    decide
  ⟨h, by decide +kernel, read?_normalText h⟩

end Command
end GCode
