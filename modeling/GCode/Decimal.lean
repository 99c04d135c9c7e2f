import GCode.Binary
import GCode.Numeral

/-! # Decimals

A decimal is a 64-bit integer with a number of decimal places, and stands for the integer divided
by that power of ten. Two decimals are equal only if both parts are: `1.2` and `1.20` differ.
-/

namespace GCode

/-- `mantissa` divided by ten to the power `scale`. -/
structure Decimal where
  mantissa : Int64
  scale : UInt8
  deriving DecidableEq, Repr

namespace Decimal

def ofInt32 (n : Int32) : Decimal := ⟨n.toInt64, 0⟩

def magnitude (d : Decimal) : Nat := d.mantissa.toInt.natAbs

def isNegative (d : Decimal) : Bool := d.mantissa < 0

def padLeft (length : Nat) (digits : List Char) : List Char :=
  List.replicate (length - digits.length) '0' ++ digits

/-- A decimal as it is written: as many digits after the point as it has places, and no point if
it has none. -/
def text (d : Decimal) : List Char :=
  let sign := if d.isNegative then ['-'] else []
  let scale := d.scale.toNat
  if scale = 0 then sign ++ Numeral.render d.magnitude
  else
    sign ++ Numeral.render (d.magnitude / Nat.pow 10 scale) ++
      '.' :: padLeft scale (Numeral.render (d.magnitude % Nat.pow 10 scale))

/-- The power of ten by which a decimal is divided in floating point: one, multiplied by ten place
after place, each product rounded to the 64-bit format. -/
def divisor : (places : Nat) → Nat
  | 0 => 1
  | places + 1 => BinaryFormat.double.nearestNat (divisor places * 10)

/-- The floating-point reading: the mantissa rounded to the 64-bit format, divided once by
`divisor`. -/
def toDouble (d : Decimal) : Double :=
  Double.ofQuotient d.isNegative (BinaryFormat.double.nearestNat d.magnitude)
    (divisor d.scale.toNat)

def maxPlaces : Nat := 18

def maxMagnitude : Nat := 9223372036854775807

/-- Appends the digits after a point to a magnitude, one place each, and stops before the first one
that does not fit the mantissa or would be a place too many. -/
def appendPlaces (magnitude places : Nat) : List Char → Nat × Nat
  | [] => (magnitude, places)
  | digit :: digits =>
      let next := magnitude * 10 + (digit.toNat - '0'.toNat)
      if next ≤ maxMagnitude ∧ places < maxPlaces then appendPlaces next (places + 1) digits
      else (magnitude, places)

/-- The decimal of a sign, a whole number and the digits after the point, as far as they fit. -/
def ofDigits (negative : Bool) (whole : Nat) (digits : List Char) : Decimal :=
  let (magnitude, places) := appendPlaces whole 0 digits
  let mantissa := Int64.ofNat magnitude
  ⟨if negative then -mantissa else mantissa, places.toUInt8⟩

end Decimal
end GCode
