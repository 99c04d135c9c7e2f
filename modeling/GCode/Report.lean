import GCode.Command
import GCode.Lines

/-! # The report on an input

The report goes through the lines of an input, numbered from one. A command is reported by its code
and, one to a line, its fields: the word with the scaled integer, or the field as it stands if it
has none. A line that is not UTF-8 is reported apart, and a line that is no command not at all.

Lines are counted in 32 bits, whatever is on them. The line behind number 2147483647 has no number:
the report is cut there, and what it says of the lines before stands.
-/

namespace GCode

inductive Remark
  | unreadable (error : Error)
  | recognized (command : Command)
  deriving DecidableEq, Repr

namespace Remark

/-- The settings of a report: three decimal places. -/
def settings : Settings := { scale := 3 }

def ofLine? : Except Error (List Char) → Option Remark
  | .error error => some (.unreadable error)
  | .ok line => (Command.read? settings line).map .recognized

def fieldText (field : Field) : List Char :=
  let value :=
    match field.scaled with
    | .ok value => field.word :: " = ".toList ++ value.toInt.repr.toList
    | .error _ => field.raw
  "    ".toList ++ value ++ " (".toList ++ field.kind.name.toList ++ ")\n".toList

def numberText (number : Int) : List Char := number.repr.toList ++ ": ".toList

/-- What a remark adds to the output, under the number of its line. -/
def output (number : Int) : Remark → List Char
  | .unreadable _ => []
  | .recognized command =>
      numberText number ++ command.code.text ++ '\n' :: command.fields.flatMap fieldText

def complaint (number : Int) : Remark → List Char
  | .unreadable error => numberText number ++ error.message.toList ++ ['\n']
  | .recognized _ => []

end Remark

/-- A remark on the line of a number. -/
structure Finding where
  number : Int32
  remark : Remark
  deriving DecidableEq, Repr

namespace Finding

def output (finding : Finding) : List Char := finding.remark.output finding.number.toInt

def complaint (finding : Finding) : List Char := finding.remark.complaint finding.number.toInt

end Finding

/-- The number behind another one, if 32 bits hold it. -/
def nextNumber? (number : Int32) : Option Int32 :=
  if number < Int32.maxValue then some (number + 1) else none

/-- The findings on the lines behind a number, and whether they end early because a line is left
without a number. -/
def findingsAfter (number : Int32) : List (Except Error (List Char)) → List Finding × Bool
  | [] => ([], false)
  | line :: lines =>
      match nextNumber? number with
      | none => ([], true)
      | some next =>
          let (findings, isCut) := findingsAfter next lines
          (((Remark.ofLine? line).map (⟨next, ·⟩)).toList ++ findings, isCut)

/-- A report: what goes to the output, and the complaints. -/
structure Report where
  output : List Char
  complaints : List Char
  /-- Whether there are more lines than numbers. -/
  isCut : Bool
  deriving DecidableEq, Repr

def Report.ofBytes (bytes : List UInt8) : Report :=
  let (findings, isCut) := findingsAfter 0 (linesOf bytes)
  ⟨findings.flatMap Finding.output, findings.flatMap Finding.complaint, isCut⟩

end GCode
