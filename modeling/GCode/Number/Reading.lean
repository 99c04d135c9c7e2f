import GCode.Decimal
import GCode.Number.Basic
import GCode.Number.Exact
import GCode.Settings.Basic
import GCode.Text.Bytes

/-! # The values of a number

A number is read as an integer, as an integer scaled by a power of ten, as a decimal and in binary
floating point.

* The integer is the part before the point.
* The scaled integer keeps as many places as the settings say and drops the others. It is absent if
  its magnitude is past `Numeral.limit`.
* The decimal keeps all digits, as far as they fit.
* Floating point rounds the exact value. A number without blanks is read as it stands; one with
  blanks is packed into `packedCapacity` places first, and digits after the point that find no
  place are dropped.
-/

namespace GCode.Number

def applySign (negative : Bool) (magnitude : UInt64) : Int32 :=
  let word := magnitude.toInt64.toInt32
  if negative then -word else word

def toInt (n : Number) : Int32 := applySign n.isNegative n.integral

/-- Scales a number without places: one product, in range exactly if the factor is at most
`Settings.maxScalable`. -/
def scaleWhole? (settings : Settings) (negative : Bool) (integral : UInt64) : Option Int32 :=
  let word := integral.toInt64.toInt32
  if settings.maxScalable < word then none
  else
    let scaled := word * settings.scaleFactor
    some (if negative then -scaled else scaled)

/-- The number scaled by the settings, `none` if it is past the limit. -/
def scaled? (settings : Settings) (n : Number) : Option Int32 :=
  match n.places with
  | [] => scaleWhole? settings n.isNegative n.integral
  | places =>
      (Numeral.fixed? settings.scale n.integral places).map (applySign n.isNegative)

def toDecimal (n : Number) : Decimal :=
  Decimal.ofDigits n.isNegative n.integral.toNat n.places

/-! ### Packing -/

/-- The number of places that a number with blanks is packed into. -/
def packedCapacity : Nat := 64

/-- Whole digits without superfluous zeros: none in front, and a single one if there is nothing
else. -/
def trimZeros (digits : List Char) : List Char :=
  match digits.dropWhile (· = '0') with
  | [] => digits.take 1
  | significant => significant

/-- What a packed number starts with: its sign, its whole digits and its point. -/
def packedHead (n : Number) : List Char :=
  n.sign.toList.map Sign.char ++ trimZeros n.whole ++ (if n.point.isSome then ['.'] else [])

/-- A number packed into `packedCapacity` places, `none` if it has more before the digits after its
point. -/
def packed? (n : Number) : Option (List Char) :=
  if n.packedHead.length ≤ packedCapacity then
    some (n.packedHead ++ n.places.take (packedCapacity - n.packedHead.length))
  else none

def toExact? (n : Number) : Option Exact :=
  if n.isSpaced then n.packed?.bind Exact.ofText? else Exact.ofText? n.text

end GCode.Number
