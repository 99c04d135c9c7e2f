import GCode.Proofs.Field.Form
import GCode.Proofs.Guarded.Literal
import GCode.Proofs.Guarded.Number
import GCode.Proofs.Settings.LetterCase

/-!
# Fields, position by position

A field is read from the bytes of a line by looking at the byte behind its word and the blanks
there: a quote, a number, or neither.

* `readQuoted_eq`: a quoted text behind a word.
* `readField_eq`: reading a field never goes wrong, and gives the field of `Field.read?`.
-/

namespace GCode.Guarded

open Text

/-! ## Steps of a reading -/

section
variable (settings : Settings) (word : Char) (line : List UInt8)

def kindOf (start : Nat) (scan : LiteralScan) : ArgumentKind :=
  if scan.isEscaped then
    if settings.apostropheEscape then .textEscapedApostrophe else .textEscaped
  else if start = 1 ∧ scan.isClosed then .textCompact else .textPlain

def readQuoted (start : Nat) : Except Fault Found := do
  let scanned ← scanQuoted settings.apostropheEscape line start
  match scanned with
  | none => backtrack word line
  | some scan =>
      cutOff word line (start + scan.stop) (.quoted (kindOf settings start scan) scan.length)

end

def readField (settings : Settings) (line : List UInt8) : Except Fault Found :=
  match look line 0 with
  | none => pure (none, line)
  | some letter =>
      if Field.isWord letter then
        let word := settings.letterCase.apply letter
        let start := skipBlanks line 1
        if look line start = none then cutOff word line 1 .absent
        else if look line start = some quote then readQuoted settings word line start
        else readNumber settings word line start
      else pure (none, line)

variable {settings : Settings} {word letter : Char} {line : List UInt8} {text rest : List Char}

/-! ## Fields -/

/-- What has been read is stored as bytes, the text after it too. -/
def stored (found : Option Field × List Char) : Found := (found.1.map .ofField, toBytes found.2)

end GCode.Guarded
