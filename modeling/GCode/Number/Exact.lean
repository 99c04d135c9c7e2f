import GCode.Binary
import GCode.Numeral

/-! # The exact value of a number without blanks

A number written without blanks and without an exponent has a sign, digits and perhaps a point,
with a digit on at least one side of it. `Exact.ofText?` reads exactly these texts, and the value
that it finds is rounded once, directly to the wanted binary format.
-/

namespace GCode

/-- `digits` divided by ten to the power `places`, under a sign that zero has too. -/
structure Exact where
  negative : Bool
  digits : Nat
  places : Nat
  deriving DecidableEq, Repr

namespace Exact

/-- Splits off the sign at the head of a number; the flag tells whether it is a minus. -/
def splitSign : List Char → Bool × List Char
  | '-' :: text => (true, text)
  | '+' :: text => (false, text)
  | text => (false, text)

def ofUnsigned? (negative : Bool) (text : List Char) : Option Exact :=
  let whole := Numeral.takeDigits text
  match Numeral.dropDigits text with
  | [] => if whole = [] then none else some ⟨negative, Numeral.value whole, 0⟩
  | '.' :: places =>
      if places.all Char.isDigit && !(whole ++ places).isEmpty then
        some ⟨negative, Numeral.value (whole ++ places), places.length⟩
      else none
  | _ => none

/-- The value of a number that takes up the whole text. -/
def ofText? (text : List Char) : Option Exact :=
  let (negative, rest) := splitSign text
  ofUnsigned? negative rest

def toSingle (x : Exact) : Single := Single.ofQuotient x.negative x.digits (Nat.pow 10 x.places)

def toDouble (x : Exact) : Double := Double.ofQuotient x.negative x.digits (Nat.pow 10 x.places)

end Exact
end GCode
