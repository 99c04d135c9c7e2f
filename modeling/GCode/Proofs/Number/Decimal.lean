import GCode.Field.Reading
import GCode.Proofs.Number.Scaling
import Mathlib.Data.Rat.Floor

/-!
# The decimal of a number

The decimal of a number keeps the digits after the point one after another, as long as they fit
(`Decimal.Keeps`). It leaves out digits only when it has more places than any scaled integer, so the
integers of a number can be taken from its decimal as well as from all its digits.

* `Decimal.exists_keeps_ofDigits`: a decimal is the number in fixed point, with the places it keeps.
* `Decimal.Keeps.fixedPoint_eq`: fewer places are found in the decimal, although it may be cut off.
* `Number.keeps_toDecimal`: the decimal of a number, with the places it keeps.
* `Number.truncate_toDecimal`: a decimal times a power of ten, truncated, is the number in fixed
  point.
* `Field.integers_of_decimal`: the integers of a field are those of its decimal.
-/

namespace GCode

open Text Numeral

namespace Decimal

/-! ## The places that are kept -/

/-- How many of the digits after a point are kept: the most that fit. -/
structure Keeps (whole : Nat) (digits : List Char) (kept : Nat) : Prop where
  le_length : kept ≤ digits.length
  le_maxPlaces : kept ≤ maxPlaces
  fits : fixedPoint kept whole digits ≤ maxMagnitude
  maximal : kept < digits.length → kept < maxPlaces →
    maxMagnitude < fixedPoint (kept + 1) whole digits

/-- **Digits are appended as long as they fit.** The first one that does not fit ends it. -/
theorem exists_appendPlaces_eq {whole places : Nat} (hw : whole ≤ maxMagnitude)
    (hp : places ≤ maxPlaces) (digits : List Char) :
    ∃ kept, appendPlaces whole places digits = (fixedPoint kept whole digits, places + kept) ∧
      kept ≤ digits.length ∧ places + kept ≤ maxPlaces ∧
      fixedPoint kept whole digits ≤ maxMagnitude ∧
      (kept < digits.length → places + kept < maxPlaces →
        maxMagnitude < fixedPoint (kept + 1) whole digits) := by
  induction digits generalizing whole places with
  | nil =>
      refine ⟨0, ?_, Nat.le_refl 0, hp, ?_, fun h => absurd h (Nat.lt_irrefl 0)⟩
      · rw [appendPlaces, fixedPoint_zero, Nat.add_zero]
      · rwa [fixedPoint_zero]
  | cons digit digits ih =>
      have hstep (n : Nat) : fixedPoint (n + 1) whole (digit :: digits) =
          fixedPoint n (whole * 10 + digitValue digit) digits :=
        fixedPoint_succ n whole (digit :: digits)
      by_cases hnext : whole * 10 + digitValue digit ≤ maxMagnitude ∧ places < maxPlaces
      · obtain ⟨kept, heq, hlength, hplaces, hfits, hmaximal⟩ := ih hnext.1 hnext.2
        refine ⟨kept + 1, ?_, Nat.succ_le_succ hlength, by omega, ?_, ?_⟩
        · rw [Nat.succ_add_eq_add_succ] at heq
          rw [appendPlaces, hstep]
          exact (if_pos hnext).trans heq
        · rwa [hstep]
        · intro hlt hmax
          rw [hstep]
          exact hmaximal (Nat.lt_of_succ_lt_succ hlt) (by omega)
      · refine ⟨0, ?_, Nat.zero_le _, hp, ?_, ?_⟩
        · rw [appendPlaces, fixedPoint_zero]
          exact if_neg hnext
        · rwa [fixedPoint_zero]
        · intro _ hmax
          rw [hstep, fixedPoint_zero]
          omega

theorem toInt_mantissa (negative : Bool) {magnitude : Nat} (h : magnitude ≤ maxMagnitude) :
    (if negative then -Int64.ofNat magnitude else Int64.ofNat magnitude).toInt =
      Number.signFactor negative * magnitude := by
  have hm : magnitude ≤ 9223372036854775807 := h
  have hpos : (Int64.ofNat magnitude).toInt = magnitude := Int64.toInt_ofNat_of_lt (by omega)
  cases negative with
  | false => simpa [Number.signFactor] using hpos
  | true =>
      have hneg : (-Int64.ofNat magnitude).toInt = -magnitude := by
        rw [Int64.toInt_neg, hpos]
        exact Int.bmod_eq_of_le (by omega) (by omega)
      simpa [Number.signFactor] using hneg

/-- **A decimal read from digits is the number in fixed point**, with as many places as fit. -/
theorem exists_keeps_ofDigits (negative : Bool) {whole : Nat} (hw : whole ≤ maxMagnitude)
    (digits : List Char) :
    ∃ kept, Keeps whole digits kept ∧
      (ofDigits negative whole digits).mantissa.toInt =
        Number.signFactor negative * (fixedPoint kept whole digits : Nat) ∧
      (ofDigits negative whole digits).scale.toNat = kept := by
  obtain ⟨kept, heq, hlength, hplaces, hfits, hmaximal⟩ :=
    exists_appendPlaces_eq hw (Nat.zero_le maxPlaces) digits
  rw [Nat.zero_add] at heq hplaces hmaximal
  have hscale : kept.toUInt8.toNat = kept := by
    have hmax : kept ≤ 18 := hplaces
    rw [Nat.toUInt8_eq, UInt8.toNat_ofNat']
    omega
  refine ⟨kept, ⟨hlength, hplaces, hfits, hmaximal⟩, ?_, ?_⟩
  · rw [ofDigits, heq]
    exact toInt_mantissa negative hfits
  · rw [ofDigits, heq]
    exact hscale

/-! ## What is left out -/

theorem Keeps.nine_le {whole kept : Nat} {digits : List Char} (h : Keeps whole digits kept)
    (hd : IsRun Char.isDigit digits) (hw : whole ≤ limit.toNat) (hlt : kept < digits.length) :
    9 ≤ kept := by
  by_contra hsmall
  have hmax : maxMagnitude < fixedPoint (kept + 1) whole digits :=
    h.maximal hlt (Nat.lt_trans (Nat.lt_of_not_le hsmall) (by decide))
  have hbound : fixedPoint (kept + 1) whole digits < (whole + 1) * 10 ^ (kept + 1) :=
    fixedPoint_lt hd (kept + 1) whole
  have hpow : 10 ^ (kept + 1) ≤ 10 ^ 9 := Nat.pow_le_pow_right (by decide) (by omega)
  have hlimit : whole + 1 ≤ 2147483648 := by
    rw [toNat_limit] at hw
    omega
  have hprod : (whole + 1) * 10 ^ (kept + 1) ≤ 2147483648 * 10 ^ 9 := Nat.mul_le_mul hlimit hpow
  have hmagnitude : maxMagnitude = 9223372036854775807 := rfl
  omega

/-- **The digits that are kept are enough for a few places**: all of them, or more than asked. -/
theorem Keeps.fixedPoint_eq {whole kept places : Nat} {digits : List Char}
    (h : Keeps whole digits kept) (hd : IsRun Char.isDigit digits) (hw : whole ≤ limit.toNat)
    (hp : places ≤ 9) :
    fixedPoint kept whole digits * 10 ^ places / 10 ^ kept = fixedPoint places whole digits := by
  by_cases hall : kept = digits.length
  · rw [hall, fixedPoint_length hd, fixedPoint_eq_div hd places]
  · have hkept : places ≤ kept :=
      Nat.le_trans hp (h.nine_le hd hw (Nat.lt_of_le_of_ne h.le_length hall))
    have hpow : 10 ^ kept = 10 ^ (kept - places) * 10 ^ places := by
      rw [← pow_add, Nat.sub_add_cancel hkept]
    rw [hpow, Nat.mul_div_mul_right _ _ (Nat.pow_pos (by decide)), fixedPoint_div_pow hd hkept]

/-! ## The value of a decimal -/

def toRat (d : Decimal) : ℚ := d.mantissa.toInt / 10 ^ d.scale.toNat

/-- A number less what stands after its point. -/
def truncate (q : ℚ) : ℤ := if 0 ≤ q then ⌊q⌋ else ⌈q⌉

theorem truncate_neg (q : ℚ) : truncate (-q) = -truncate q := by
  rcases lt_trichotomy q 0 with h | rfl | h
  · rw [truncate, truncate, if_pos (by linarith), if_neg (by linarith), Int.floor_neg]
  · decide
  · rw [truncate, truncate, if_neg (by linarith), if_pos (by linarith), Int.ceil_neg]

theorem truncate_natCast_div (num den : Nat) :
    truncate ((num : ℚ) / (den : ℚ)) = (num / den : Nat) := by
  have hnonneg : 0 ≤ (num : ℚ) / (den : ℚ) := by positivity
  rw [truncate, if_pos hnonneg, Rat.floor_natCast_div_natCast]
  rfl

theorem truncate_signFactor_mul (negative : Bool) (q : ℚ) :
    truncate (Number.signFactor negative * q) = Number.signFactor negative * truncate q := by
  cases negative with
  | false => simp [Number.signFactor]
  | true => simp [Number.signFactor, truncate_neg]

end Decimal

namespace Number

/-- **The decimal of a number is the number in fixed point**, with the places that it keeps. -/
theorem keeps_toDecimal {n : Number} (hw : n.WellFormed) :
    Decimal.Keeps (value n.whole) n.places n.toDecimal.scale.toNat ∧
      n.toDecimal.mantissa.toInt =
        n.signum * (fixedPoint n.toDecimal.scale.toNat (value n.whole) n.places : Nat) := by
  have hmax : value n.whole ≤ Decimal.maxMagnitude := Nat.le_trans hw.value_le (by decide)
  have hdecimal : n.toDecimal = Decimal.ofDigits n.isNegative (value n.whole) n.places := by
    rw [toDecimal, hw.toNat_integral]
  obtain ⟨kept, hkeeps, hmantissa, hscale⟩ :=
    Decimal.exists_keeps_ofDigits n.isNegative hmax n.places
  rw [hdecimal, hscale]
  exact ⟨hkeeps, hmantissa⟩

/-- **A decimal times a power of ten, truncated, is the number in fixed point**, even if the decimal
does not have all the digits. -/
theorem truncate_toDecimal {n : Number} (hw : n.WellFormed) {places : Nat} (hp : places ≤ 9) :
    Decimal.truncate (n.toDecimal.toRat * 10 ^ places) =
      n.signum * (fixedPoint places (value n.whole) n.places : Nat) := by
  obtain ⟨hkeeps, hmantissa⟩ := keeps_toDecimal hw
  have hrat : n.toDecimal.toRat * 10 ^ places = signFactor n.isNegative *
      (((fixedPoint n.toDecimal.scale.toNat (value n.whole) n.places * 10 ^ places : Nat) : ℚ) /
        ((10 ^ n.toDecimal.scale.toNat : Nat) : ℚ)) := by
    rw [Decimal.toRat, hmantissa, signum]
    push_cast
    ring
  rw [hrat, Decimal.truncate_signFactor_mul, Decimal.truncate_natCast_div,
    hkeeps.fixedPoint_eq hw.isRun_places hw.value_le hp, signum]

theorem natAbs_signFactor_mul (negative : Bool) (n : Nat) :
    (signFactor negative * (n : Int)).natAbs = n := by
  cases negative with
  | false => simp [signFactor]
  | true => simp [signFactor]

end Number

namespace Field

variable {settings : Settings} {line tail : List Char} {field : Field}

/-- **The integers of a field are those of its decimal.** The integer is the decimal truncated, the
scaled integer the decimal times the power of ten of the settings, truncated, and it is refused
exactly if its magnitude is past the limit. -/
theorem integers_of_decimal (h : read? settings line = some (field, tail))
    (hk : field.kind.isNumeric = true) :
    ∃ d, field.decimal = .ok d ∧
      field.integer.map Int32.toInt = .ok (Decimal.truncate d.toRat) ∧
      field.scaled.map Int32.toInt =
        if (Decimal.truncate (d.toRat * 10 ^ settings.scale)).natAbs ≤ 2147483647 then
          .ok (Decimal.truncate (d.toRat * 10 ^ settings.scale))
        else .error .scaledOverflow := by
  obtain ⟨rest, n, -, -, -, hr, ha⟩ := exists_number_of_read? h hk
  have hw : n.WellFormed := (Number.read?_eq_some_iff.1 hr).1
  have hdecimal : field.decimal = .ok n.toDecimal := by rw [decimal, ha]
  have hscale : settings.scale ≤ 9 := Nat.le_trans settings.scale_le (by decide)
  have hwhole := Number.truncate_toDecimal hw (Nat.zero_le 9)
  rw [pow_zero, mul_one, fixedPoint_zero] at hwhole
  refine ⟨n.toDecimal, hdecimal, ?_, ?_⟩
  · rw [integer_of_number ha, Except.map, Number.toInt_toInt hw, hwhole]
  · rw [map_toInt_scaled hw ha, Number.truncate_toDecimal hw hscale, Number.signum,
      Number.natAbs_signFactor_mul]

/-- A number within a part of a unit of the limit, with more digits than its decimal keeps. -/
def abundant : Field :=
  ⟨'x', 'X', .number ⟨[], some .minus, [' '], "0021474".toList, 21474,
    some ⟨[], [' '], "836479999999999999999999".toList⟩⟩ (some (-2147483647))⟩

theorem integers_of_decimal_abundant :
    read? { scale := 5 } "x- 0021474. 836479999999999999999999Y".toList =
        some (abundant, ['Y']) ∧
      abundant.kind.isNumeric = true ∧ abundant.decimal = .ok ⟨-2147483647999999999, 14⟩ ∧
      ∃ d, abundant.decimal = .ok d ∧
        abundant.integer.map Int32.toInt = .ok (Decimal.truncate d.toRat) ∧
        abundant.scaled.map Int32.toInt =
          if (Decimal.truncate (d.toRat * 10 ^ ({ scale := 5 } : Settings).scale)).natAbs ≤
              2147483647 then
            .ok (Decimal.truncate (d.toRat * 10 ^ ({ scale := 5 } : Settings).scale))
          else .error .scaledOverflow := by
  have h : read? { scale := 5 } "x- 0021474. 836479999999999999999999Y".toList =
      some (abundant, ['Y']) := by decide
  refine ⟨h, by decide, by decide, integers_of_decimal h (by decide)⟩

end Field
end GCode
