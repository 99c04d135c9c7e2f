/-! # Binary floating point

The words of the two binary interchange formats, as the nearest ones to exact values given by
natural numbers. A quotient `num / den` is rounded once: the exponent of its leading bit fixes the
spacing of the grid, the spacing never goes below that of the subnormal numbers, and the quotient
is rounded to the nearest point of that grid, a tie going to the even one (`roundQuotient`).

The word of a magnitude is `(exponent - minExponent) * 2 ^ (precision - 1) + significand`: the
leading one of a normal significand adds the missing unit to the exponent field, and a significand
that is rounded up to the next power of two carries into it.
-/

namespace GCode

/-- A binary interchange format. -/
structure BinaryFormat where
  /-- The number of bits of a significand, its leading one included. -/
  precision : Nat
  exponentBits : Nat
  deriving DecidableEq, Repr

/-- The quotient of two numbers rounded to the nearest integer, a tie going to the even one. -/
def roundQuotient (num den : Nat) : Nat :=
  let quotient := num / den
  let rest := 2 * (num % den)
  if den < rest ∨ (rest = den ∧ quotient % 2 = 1) then quotient + 1 else quotient

/-- The exponent of the leading bit of a positive quotient: the largest `e` with
`2 ^ e ≤ num / den`. -/
def leadingExponent (num den : Nat) : Int :=
  let e : Int := num.log2 - den.log2
  let fits : Bool :=
    if 0 ≤ e then den * Nat.pow 2 e.toNat ≤ num else den ≤ num * Nat.pow 2 (-e).toNat
  if fits then e else e - 1

namespace BinaryFormat

def single : BinaryFormat := ⟨24, 8⟩

def double : BinaryFormat := ⟨53, 11⟩

def minExponent (format : BinaryFormat) : Int :=
  2 - Int.ofNat (Nat.pow 2 (format.exponentBits - 1))

def infinity (format : BinaryFormat) : Nat :=
  (Nat.pow 2 format.exponentBits - 1) * Nat.pow 2 (format.precision - 1)

def signBit (format : BinaryFormat) : Nat :=
  Nat.pow 2 (format.precision - 1 + format.exponentBits)

/-- The word of the number nearest to a quotient. -/
def ofQuotient (format : BinaryFormat) (num den : Nat) : Nat :=
  if num = 0 then 0
  else
    let exponent := max (leadingExponent num den) format.minExponent
    let spacing : Int := exponent - (format.precision - 1 : Nat)
    let significand :=
      if 0 ≤ spacing then roundQuotient num (den * Nat.pow 2 spacing.toNat)
      else roundQuotient (num * Nat.pow 2 (-spacing).toNat) den
    min ((exponent - format.minExponent).toNat * Nat.pow 2 (format.precision - 1) + significand)
      format.infinity

def signed (format : BinaryFormat) (negative : Bool) (magnitude : Nat) : Nat :=
  if negative then format.signBit + magnitude else magnitude

/-- The natural number nearest to `n` among those with no more than `precision` significant bits.
Every integer that a wide enough format holds is such a number. -/
def nearestNat (format : BinaryFormat) (n : Nat) : Nat :=
  let dropped := n.log2 + 1 - format.precision
  roundQuotient n (Nat.pow 2 dropped) * Nat.pow 2 dropped

end BinaryFormat

structure Single where
  bits : UInt32
  deriving DecidableEq, Repr

structure Double where
  bits : UInt64
  deriving DecidableEq, Repr

def Single.ofQuotient (negative : Bool) (num den : Nat) : Single :=
  ⟨(BinaryFormat.single.signed negative (BinaryFormat.single.ofQuotient num den)).toUInt32⟩

def Double.ofQuotient (negative : Bool) (num den : Nat) : Double :=
  ⟨(BinaryFormat.double.signed negative (BinaryFormat.double.ofQuotient num den)).toUInt64⟩

end GCode
