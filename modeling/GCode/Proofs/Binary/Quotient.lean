import GCode.Number.Exact
import Mathlib.Algebra.Order.Field.Basic
import Mathlib.Algebra.Order.Field.Rat
import Mathlib.Data.Int.Log
import Mathlib.Data.Rat.Floor
import Mathlib.Tactic.Ring

/-!
# Rounding depends on the quotient alone

The word nearest to a quotient is found from its numerator and denominator. A factor that both have
in common makes no difference, neither to the exponent of the leading bit, which is a logarithm of
the quotient (`leadingExponent_eq_log`), nor to the rounding itself.

* `BinaryFormat.ofQuotient_mul`: the word of a quotient does not change with a common factor.
* `Exact.toDouble_pad`, `Exact.toSingle_pad`: zeros behind the last place of an exact value do not
  change what it is rounded to.
-/

namespace GCode

theorem roundQuotient_mul {c : Nat} (hc : 0 < c) (num den : Nat) :
    roundQuotient (num * c) (den * c) = roundQuotient num den := by
  have hquotient : num * c / (den * c) = num / den := Nat.mul_div_mul_right num den hc
  have hrest : 2 * (num * c % (den * c)) = 2 * (num % den) * c := by
    rw [Nat.mul_mod_mul_right, Nat.mul_assoc]
  have hlt : den * c < 2 * (num % den) * c ↔ den < 2 * (num % den) := Nat.mul_lt_mul_right hc
  have heq : 2 * (num % den) * c = den * c ↔ 2 * (num % den) = den :=
    Nat.mul_left_inj (Nat.pos_iff_ne_zero.1 hc)
  simp only [roundQuotient, hquotient, hrest, hlt, heq]

/-! ## The leading bit -/

theorem log2_bounds {n : Nat} (hn : 0 < n) :
    (2 : ℚ) ^ (n.log2 : ℤ) ≤ n ∧ (n : ℚ) < 2 ^ ((n.log2 : ℤ) + 1) := by
  have hlow : 2 ^ n.log2 ≤ n := Nat.log2_self_le (Nat.pos_iff_ne_zero.1 hn)
  have hhigh : n < 2 ^ (n.log2 + 1) := Nat.lt_log2_self
  constructor
  · rw [zpow_natCast]
    exact_mod_cast hlow
  · rw [← Nat.cast_succ, zpow_natCast]
    exact_mod_cast hhigh

theorem two_zpow_le_div_iff (num : Nat) {den : Nat} (hd : 0 < den) (e : ℤ) :
    (2 : ℚ) ^ e ≤ (num : ℚ) / den ↔
      if 0 ≤ e then den * Nat.pow 2 e.toNat ≤ num else den ≤ num * Nat.pow 2 (-e).toNat := by
  have hden : (0 : ℚ) < den := by exact_mod_cast hd
  rw [le_div_iff₀ hden]
  split
  next he =>
    obtain ⟨k, rfl⟩ := Int.eq_ofNat_of_zero_le he
    rw [zpow_natCast, Int.toNat_natCast, Nat.pow_eq, Nat.mul_comm]
    exact_mod_cast Iff.rfl
  next he =>
    obtain ⟨k, hk⟩ := Int.eq_ofNat_of_zero_le (show 0 ≤ -e by omega)
    have hpos : (0 : ℚ) < 2 ^ k := pow_pos (by norm_num) k
    have he' : e = -(k : ℤ) := by omega
    rw [he', zpow_neg, zpow_natCast, neg_neg, Int.toNat_natCast, Nat.pow_eq,
      inv_mul_le_iff₀ hpos, mul_comm]
    exact_mod_cast Iff.rfl

/-- The logarithm of a quotient is the difference of the two logarithms, or one less. -/
theorem log_div_bounds {num den : Nat} (hn : 0 < num) (hd : 0 < den) :
    (num.log2 : ℤ) - den.log2 - 1 ≤ Int.log 2 ((num : ℚ) / den) ∧
      Int.log 2 ((num : ℚ) / den) < (num.log2 : ℤ) - den.log2 + 1 := by
  have hnum : (0 : ℚ) < num := by exact_mod_cast hn
  have hden : (0 : ℚ) < den := by exact_mod_cast hd
  have hpos : (0 : ℚ) < (num : ℚ) / den := div_pos hnum hden
  obtain ⟨hnlow, hnhigh⟩ := log2_bounds hn
  obtain ⟨hdlow, hdhigh⟩ := log2_bounds hd
  -- each number lies between two powers of two, and the quotient between their quotients
  constructor
  · refine (Int.zpow_le_iff_le_log (by decide) hpos).1 ?_
    push_cast
    rw [le_div_iff₀ hden]
    calc (2 : ℚ) ^ ((num.log2 : ℤ) - den.log2 - 1) * den
        ≤ 2 ^ ((num.log2 : ℤ) - den.log2 - 1) * 2 ^ ((den.log2 : ℤ) + 1) :=
          mul_le_mul_of_nonneg_left hdhigh.le (zpow_nonneg (by norm_num) _)
      _ = 2 ^ (num.log2 : ℤ) := by
          rw [← zpow_add₀ (by norm_num)]
          congr 1
          ring
      _ ≤ num := hnlow
  · refine (Int.lt_zpow_iff_log_lt (by decide) hpos).1 ?_
    rw [div_lt_iff₀ hden]
    calc (num : ℚ) < 2 ^ ((num.log2 : ℤ) + 1) := hnhigh
      _ = 2 ^ ((num.log2 : ℤ) - den.log2 + 1) * 2 ^ (den.log2 : ℤ) := by
          rw [← zpow_add₀ (by norm_num)]
          congr 1
          ring
      _ ≤ 2 ^ ((num.log2 : ℤ) - den.log2 + 1) * den :=
          mul_le_mul_of_nonneg_left hdlow (zpow_nonneg (by norm_num) _)

/-- **The exponent of the leading bit is the logarithm of the quotient.** -/
theorem leadingExponent_eq_log {num den : Nat} (hn : 0 < num) (hd : 0 < den) :
    leadingExponent num den = Int.log 2 ((num : ℚ) / den) := by
  have hnum : (0 : ℚ) < num := by exact_mod_cast hn
  have hden : (0 : ℚ) < den := by exact_mod_cast hd
  have hpos : (0 : ℚ) < (num : ℚ) / den := div_pos hnum hden
  obtain ⟨habove, hbelow⟩ := log_div_bounds hn hd
  -- the test for the difference of the two logarithms tells which of the two it is
  have hfits := Int.zpow_le_iff_le_log (b := 2) (x := (num.log2 : ℤ) - den.log2) (by decide) hpos
  rw [Nat.cast_ofNat, two_zpow_le_div_iff num hd] at hfits
  unfold leadingExponent
  generalize (num.log2 : ℤ) - den.log2 = e at hfits hbelow habove ⊢
  by_cases he : 0 ≤ e
  · simp only [if_pos he, decide_eq_true_eq] at hfits ⊢
    simp only [hfits]
    split <;> omega
  · simp only [if_neg he, decide_eq_true_eq] at hfits ⊢
    simp only [hfits]
    split <;> omega

theorem leadingExponent_mul {c num den : Nat} (hc : 0 < c) (hn : 0 < num) (hd : 0 < den) :
    leadingExponent (num * c) (den * c) = leadingExponent num den := by
  have hc' : (c : ℚ) ≠ 0 := by exact_mod_cast Nat.pos_iff_ne_zero.1 hc
  rw [leadingExponent_eq_log (Nat.mul_pos hn hc) (Nat.mul_pos hd hc), leadingExponent_eq_log hn hd,
    Nat.cast_mul, Nat.cast_mul, mul_div_mul_right _ _ hc']

/-! ## The nearest word -/

/-- **The word of a quotient does not change with a common factor.** -/
theorem BinaryFormat.ofQuotient_mul (format : BinaryFormat) {c den : Nat} (hc : 0 < c)
    (hd : 0 < den) (num : Nat) :
    format.ofQuotient (num * c) (den * c) = format.ofQuotient num den := by
  by_cases hn : num = 0
  · simp [ofQuotient, hn]
  · have hzero : num * c ≠ 0 := Nat.mul_ne_zero hn (Nat.pos_iff_ne_zero.1 hc)
    have hlead := leadingExponent_mul hc (Nat.pos_iff_ne_zero.2 hn) hd
    have hcoarse (k : Nat) : roundQuotient (num * c) (den * c * Nat.pow 2 k) =
        roundQuotient num (den * Nat.pow 2 k) := by
      rw [Nat.mul_right_comm, roundQuotient_mul hc]
    have hfine (k : Nat) : roundQuotient (num * c * Nat.pow 2 k) (den * c) =
        roundQuotient (num * Nat.pow 2 k) den := by
      rw [Nat.mul_right_comm, roundQuotient_mul hc]
    simp only [ofQuotient, if_neg hn, if_neg hzero, hlead, hcoarse, hfine]

namespace Exact

theorem ofQuotient_pad (format : BinaryFormat) (digits places k : Nat) :
    format.ofQuotient (digits * 10 ^ k) (Nat.pow 10 (places + k)) =
      format.ofQuotient digits (Nat.pow 10 places) := by
  have hten : 0 < Nat.pow 10 places := Nat.pow_pos (by decide)
  have hpow : Nat.pow 10 (places + k) = Nat.pow 10 places * 10 ^ k := Nat.pow_add 10 places k
  rw [hpow, format.ofQuotient_mul (Nat.pow_pos (by decide)) hten]

theorem toDouble_pad (negative : Bool) (digits places k : Nat) :
    toDouble ⟨negative, digits * 10 ^ k, places + k⟩ = toDouble ⟨negative, digits, places⟩ := by
  simp only [toDouble, Double.ofQuotient, ofQuotient_pad]

theorem toSingle_pad (negative : Bool) (digits places k : Nat) :
    toSingle ⟨negative, digits * 10 ^ k, places + k⟩ = toSingle ⟨negative, digits, places⟩ := by
  simp only [toSingle, Single.ofQuotient, ofQuotient_pad]

end Exact

end GCode
