import GCode.Proofs.Number.Decimal
import Mathlib.Order.Bounds.Basic

/-!
# The decimal of a number is its truncation

A number may be written with more digits than a decimal can have. The digits after the point are
taken from the left as long as the mantissa holds them and there are places for them. Each place
makes the mantissa larger, so the first one that does not fit is the only place to stop: with any
more of them the number would not fit either.

* `Decimal.Keeps.isGreatest`: the places that are kept are the most that fit.
* `Number.floor_magnitude_mul_pow`: the number in fixed point is the number that is written, times
  a power of ten, less what stands after its point.
* `Number.isGreatest_scale_toDecimal`, `Number.toInt_mantissa_toDecimal`: the two parts of a decimal.
* `Field.decimal_truncates`: the decimal of a field is the number that is written, as long as all
  digits fit, and that number truncated toward zero otherwise.
-/

namespace GCode

open Text Numeral

/-- **The places that are kept are the most that fit.** -/
theorem Decimal.Keeps.isGreatest {whole kept : Nat} {digits : List Char}
    (h : Keeps whole digits kept) (hd : IsRun Char.isDigit digits) :
    IsGreatest {places | places ≤ min digits.length maxPlaces ∧
      fixedPoint places whole digits ≤ maxMagnitude} kept := by
  constructor
  · exact ⟨Nat.le_min.2 ⟨h.le_length, h.le_maxPlaces⟩, h.fits⟩
  · rintro places ⟨hmin, hfits⟩
    obtain ⟨hlength, hmax⟩ := Nat.le_min.1 hmin
    by_contra hmore
    have hlt : kept < places := Nat.lt_of_not_le hmore
    have hpast : maxMagnitude < fixedPoint (kept + 1) whole digits :=
      h.maximal (by omega) (by omega)
    have hmono : fixedPoint (kept + 1) whole digits ≤ fixedPoint places whole digits :=
      fixedPoint_mono hd hlt whole
    omega

namespace Number

/-! ## The number that is written -/

def magnitude (n : Number) : ℚ := value n.whole + value n.places / 10 ^ n.places.length

def toRat (n : Number) : ℚ := n.signum * n.magnitude

theorem magnitude_mul_pow (n : Number) (places : Nat) :
    n.magnitude * 10 ^ places =
      ((value n.whole * 10 ^ n.places.length + value n.places) * 10 ^ places : Nat) /
        (10 ^ n.places.length : Nat) := by
  have hpow : (10 : ℚ) ^ n.places.length ≠ 0 := by positivity
  rw [magnitude]
  push_cast
  field_simp

theorem magnitude_nonneg (n : Number) : 0 ≤ n.magnitude := by
  unfold magnitude
  positivity

variable {n : Number}

/-- **The number in fixed point is the written one, moved to the left and cut off.** -/
theorem floor_magnitude_mul_pow (hw : n.WellFormed) (places : Nat) :
    ⌊n.magnitude * 10 ^ places⌋ = (fixedPoint places (value n.whole) n.places : Nat) := by
  rw [magnitude_mul_pow, Rat.floor_natCast_div_natCast, fixedPoint_eq_div hw.isRun_places,
    Int.natCast_ediv]

theorem truncate_toRat_mul_pow (n : Number) (places : Nat) :
    Decimal.truncate (n.toRat * 10 ^ places) = n.signum * ⌊n.magnitude * 10 ^ places⌋ := by
  have hnonneg : 0 ≤ n.magnitude * 10 ^ places :=
    mul_nonneg n.magnitude_nonneg (by positivity)
  rw [toRat, signum, mul_assoc, Decimal.truncate_signFactor_mul, Decimal.truncate, if_pos hnonneg]

/-! ## The parts of the decimal -/

/-- **A decimal has the most places that fit.** -/
theorem isGreatest_scale_toDecimal (hw : n.WellFormed) :
    IsGreatest {places : Nat | places ≤ min n.places.length 18 ∧
      ⌊n.magnitude * 10 ^ places⌋ ≤ 9223372036854775807} n.toDecimal.scale.toNat := by
  have hgreatest := (keeps_toDecimal hw).1.isGreatest hw.isRun_places
  simp only [floor_magnitude_mul_pow hw]
  exact_mod_cast hgreatest

/-- **Its mantissa is the written number with that many places**, cut off after them. -/
theorem toInt_mantissa_toDecimal (hw : n.WellFormed) :
    n.toDecimal.mantissa.toInt =
      n.signum * ⌊n.magnitude * 10 ^ n.toDecimal.scale.toNat⌋ := by
  rw [floor_magnitude_mul_pow hw]
  exact (keeps_toDecimal hw).2

theorem toRat_toDecimal (hw : n.WellFormed) (hlength : n.places.length ≤ 18)
    (hfits : ⌊n.magnitude * 10 ^ n.places.length⌋ ≤ 9223372036854775807) :
    n.toDecimal.toRat = n.toRat := by
  have hgreatest := isGreatest_scale_toDecimal hw
  have hle : n.places.length ≤ n.toDecimal.scale.toNat :=
    hgreatest.2 ⟨Nat.le_min.2 ⟨Nat.le_refl _, hlength⟩, hfits⟩
  have hge : n.toDecimal.scale.toNat ≤ n.places.length := (Nat.le_min.1 hgreatest.1.1).1
  have hscale : n.toDecimal.scale.toNat = n.places.length := Nat.le_antisymm hge hle
  have hmantissa := (keeps_toDecimal hw).2
  have hpow : (10 : ℚ) ^ n.places.length ≠ 0 := by positivity
  rw [hscale, fixedPoint_length hw.isRun_places] at hmantissa
  rw [Decimal.toRat, hscale, hmantissa, toRat, magnitude]
  push_cast
  field_simp

end Number

namespace Field

variable {settings : Settings} {line tail : List Char} {field : Field}

/-- **The decimal of a field is the written number, truncated toward zero.** The number is the one
that the text of the field writes, with all its blanks, leading zeros and places. Its decimal has as
many places as are written and fit: eighteen at most, and no more than the mantissa can hold. The
mantissa is the number with that many places, and what comes after them is cut off. If all digits
fit, the decimal is the number. -/
theorem decimal_truncates (h : read? settings line = some (field, tail))
    (hk : field.kind.isNumeric = true) :
    ∃ (n : Number) (d : Decimal), n.WellFormed ∧ field.raw = field.letter :: n.text ∧
      (∀ m : Number, m.WellFormed → field.raw = field.letter :: m.text → m = n) ∧
      field.decimal = .ok d ∧
      IsGreatest {places : Nat | places ≤ min n.places.length 18 ∧
        ⌊n.magnitude * 10 ^ places⌋ ≤ 9223372036854775807} d.scale.toNat ∧
      d.mantissa.toInt = n.signum * ⌊n.magnitude * 10 ^ d.scale.toNat⌋ ∧
      d.mantissa.toInt = Decimal.truncate (n.toRat * 10 ^ d.scale.toNat) ∧
      (n.places.length ≤ 18 → ⌊n.magnitude * 10 ^ n.places.length⌋ ≤ 9223372036854775807 →
        d.toRat = n.toRat) := by
  obtain ⟨rest, n, -, -, -, hr, ha⟩ := exists_number_of_read? h hk
  have hw : n.WellFormed := (Number.read?_eq_some_iff.1 hr).1
  have hraw : field.raw = field.letter :: n.text := by rw [raw, ha, Argument.text]
  have hmantissa := Number.toInt_mantissa_toDecimal hw
  refine ⟨n, n.toDecimal, hw, hraw, ?_, by rw [decimal, ha],
    Number.isGreatest_scale_toDecimal hw, hmantissa, ?_, Number.toRat_toDecimal hw⟩
  · intro m hm hmraw
    rw [hraw] at hmraw
    exact hm.text_inj hw (List.cons.inj hmraw).2.symm
  · rw [hmantissa, Number.truncate_toRat_mul_pow]

/-- A number whose eighteenth place makes the mantissa one too large. -/
def brimming : Field :=
  ⟨'x', 'X', .number ⟨[], some .minus, [' '], "009".toList, 9,
    some ⟨[' '], ['\t'], "223372036854775808".toList⟩⟩ (some (-922))⟩

theorem decimal_truncates_brimming :
    read? { scale := 2 } "x- 009 .\t223372036854775808Y".toList = some (brimming, ['Y']) ∧
      brimming.kind.isNumeric = true ∧ brimming.decimal = .ok ⟨-922337203685477580, 17⟩ ∧
      ∃ (n : Number) (d : Decimal), n.WellFormed ∧ brimming.raw = brimming.letter :: n.text ∧
        (∀ m : Number, m.WellFormed → brimming.raw = brimming.letter :: m.text → m = n) ∧
        brimming.decimal = .ok d ∧
        IsGreatest {places : Nat | places ≤ min n.places.length 18 ∧
          ⌊n.magnitude * 10 ^ places⌋ ≤ 9223372036854775807} d.scale.toNat ∧
        d.mantissa.toInt = n.signum * ⌊n.magnitude * 10 ^ d.scale.toNat⌋ ∧
        d.mantissa.toInt = Decimal.truncate (n.toRat * 10 ^ d.scale.toNat) ∧
        (n.places.length ≤ 18 → ⌊n.magnitude * 10 ^ n.places.length⌋ ≤ 9223372036854775807 →
          d.toRat = n.toRat) := by
  have h : read? { scale := 2 } "x- 009 .\t223372036854775808Y".toList =
      some (brimming, ['Y']) := by decide
  exact ⟨h, by decide, by decide, decimal_truncates h (by decide)⟩

end Field
end GCode
