import GCode.Comment
import GCode.Field.Reading

/-! # Commands

A command is a line that starts with a code, after at most one comment. Only the code is read at
once; the fields after it are read when asked for, from left to right, up to the first text that is
no field.

`Cursor.next` reads one field. A cursor that has found none stays where it is for good, and since
every field takes up part of the line, a cursor reads only so many of them (`Cursor.readAll`).
-/

namespace GCode

/-- A place among the fields of a command. -/
structure Cursor where
  settings : Settings
  /-- The text that is not read yet. -/
  remainder : List Char
  /-- Whether a text that is no field has been met. -/
  isDone : Bool
  deriving DecidableEq, Repr

namespace Cursor

def next (cursor : Cursor) : Option Field × Cursor :=
  if cursor.isDone then (none, cursor)
  else
    let (field, tail) := Field.read cursor.settings (Text.dropBlanks cursor.remainder)
    (field, { cursor with remainder := tail, isDone := field.isNone })

theorem length_remainder_lt {cursor after : Cursor} {field : Field}
    (h : cursor.next = (some field, after)) :
    after.remainder.length < cursor.remainder.length := by
  have hb := Text.length_dropBlanks_le cursor.remainder
  unfold next at h
  split at h
  · cases h
  · dsimp only at h
    cases hr : Field.read cursor.settings (Text.dropBlanks cursor.remainder) with
    | mk found tail =>
        rw [hr] at h
        cases h
        exact Nat.lt_of_lt_of_le (Field.length_lt_of_read? (Field.read_eq_some_iff.1 hr)) hb

def readAll (cursor : Cursor) : List Field × Cursor :=
  match _h : cursor.next with
  | (none, after) => ([], after)
  | (some field, after) =>
      let (fields, last) := after.readAll
      (field :: fields, last)
termination_by cursor.remainder.length
decreasing_by exact length_remainder_lt _h

end Cursor

/-- A line that starts with a code. -/
structure Command where
  code : Code
  /-- The text after the code, without the blanks in front. -/
  body : List Char
  settings : Settings
  deriving DecidableEq, Repr

namespace Command

def read? (settings : Settings) (line : List Char) : Option Command :=
  let rest := Text.dropBlanks (Comment.skip (Text.dropBlanks line))
  match Field.read? settings rest with
  | none => none
  | some (field, tail) =>
      if field.code.isValid then some ⟨field.code, Text.dropBlanks tail, settings⟩ else none

def cursor (command : Command) : Cursor := ⟨command.settings, command.body, false⟩

def fields (command : Command) : List Field := command.cursor.readAll.1

def remainder (command : Command) : List Char := command.cursor.readAll.2.remainder

/-- A command as it is written: its code, then the text after it behind one space. -/
def text (command : Command) : List Char :=
  command.code.text ++ if command.body = [] then [] else ' ' :: command.body

/-! ### Looking fields up by their word -/

def wordOf (command : Command) (c : Char) : Char := command.settings.letterCase.apply c

def field? (command : Command) (c : Char) : Option Field :=
  command.fields.find? (·.word = command.wordOf c)

/-- The first field with a word, or the one that a literal text holds. The literal has to be that
field and nothing else. -/
def fieldOr (command : Command) (c : Char) (literal : List Char) : Except Error Field :=
  match command.field? c with
  | some field => .ok field
  | none =>
      match Field.read? command.settings literal with
      | some (field, tail) =>
          if field.word = command.wordOf c then
            if tail = [] then .ok field else .error (.defaultTail (Text.byteLength tail))
          else .error (.defaultWord (command.wordOf c))
      | none => .error (.defaultWord (command.wordOf c))

def integerOr (command : Command) (c : Char) (default : Int32) : Except Error Int32 :=
  match command.field? c with
  | some field => field.integer
  | none => .ok default

def scaledOr (command : Command) (c : Char) (default : Int32) : Except Error Int32 :=
  match command.field? c with
  | some field => field.scaled
  | none => .ok default

end Command
end GCode
