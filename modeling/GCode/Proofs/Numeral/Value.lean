import GCode.Proofs.Text.Runs
import Mathlib.Algebra.BigOperators.Group.Finset.Basic
import Mathlib.Algebra.BigOperators.Ring.Finset
import Mathlib.Tactic.Ring

/-!
# The values of digit runs

The readers of `Numeral` work digit after digit in a 64-bit word and give up at the first value
past the limit. Values only grow from digit to digit, so giving up early is the same as comparing
the whole value with the limit, and no word on the way wraps (`toNat_push`).

* `bounded?_eq_some_iff`: a run is read exactly if its value is within the limit, as that value.
* `value_append`: the value of a longer run.
* `fixedPoint`: a whole number and the digits after its point, as many of them as asked, as one
  integer.
* `map_toNat_fixed?`: the value that `fixed?` finds is `fixedPoint`, and it finds none exactly if
  that is past the limit.
-/

namespace GCode.Numeral

open Text

def digitValue (digit : Char) : Nat := digit.toNat - '0'.toNat

theorem digitValue_le {digit : Char} (h : digit.isDigit = true) : digitValue digit ≤ 9 := by
  simp only [Char.isDigit, Bool.and_eq_true, decide_eq_true_eq] at h
  have h9 : digit.val.toNat ≤ 57 := UInt32.le_iff_toNat_le.1 h.2
  show digit.val.toNat - 48 ≤ 9
  omega

theorem toNat_limit : limit.toNat = 2147483647 := rfl

/-! ## One digit after another -/

theorem toNat_push {word : UInt64} {digit : Char} (hw : word ≤ limit)
    (hd : digit.isDigit = true) : (push word digit).toNat = word.toNat * 10 + digitValue digit := by
  have hw' : word.toNat ≤ 2147483647 := UInt64.le_iff_toNat_le.1 hw
  have hd' : digitValue digit ≤ 9 := digitValue_le hd
  have hn : (digitValue digit).toUInt64.toNat = digitValue digit := by
    rw [Nat.toUInt64_eq, UInt64.toNat_ofNat']
    omega
  show (word * 10 + (digitValue digit).toUInt64).toNat = _
  rw [UInt64.toNat_add, UInt64.toNat_mul, hn]
  show (word.toNat * 10 % 2 ^ 64 + digitValue digit) % 2 ^ 64 = _
  omega

theorem le_ofDigitChars (n : Nat) (digits : List Char) : n ≤ Nat.ofDigitChars 10 digits n := by
  induction digits generalizing n with
  | nil => simp
  | cons digit digits ih =>
      rw [Nat.ofDigitChars_cons]
      have h := ih (10 * n + (digit.toNat - '0'.toNat))
      omega

theorem map_toNat_appendDigits? {digits : List Char} (hd : IsRun Char.isDigit digits)
    {word : UInt64} (hw : word ≤ limit) :
    (appendDigits? word digits).map UInt64.toNat =
      if Nat.ofDigitChars 10 digits word.toNat ≤ limit.toNat then
        some (Nat.ofDigitChars 10 digits word.toNat) else none := by
  induction digits generalizing word with
  | nil =>
      rw [Nat.ofDigitChars_nil, if_pos (UInt64.le_iff_toNat_le.1 hw)]
      rfl
  | cons digit digits ih =>
      obtain ⟨hc, hd⟩ := isRun_cons.1 hd
      have hp := toNat_push hw hc
      have hstep : Nat.ofDigitChars 10 (digit :: digits) word.toNat =
          Nat.ofDigitChars 10 digits (push word digit).toNat := by
        rw [Nat.ofDigitChars_cons, hp, Nat.mul_comm, digitValue]
      rw [hstep, appendDigits?]
      by_cases hl : limit < push word digit
      · have hle := le_ofDigitChars (push word digit).toNat digits
        rw [UInt64.lt_iff_toNat_lt] at hl
        rw [if_pos (UInt64.lt_iff_toNat_lt.2 hl), if_neg (by omega)]
        rfl
      · rw [if_neg hl]
        exact ih hd (UInt64.not_lt.1 hl)

theorem map_toNat_bounded? {digits : List Char} (hd : IsRun Char.isDigit digits) :
    (bounded? digits).map UInt64.toNat =
      if value digits ≤ limit.toNat then some (value digits) else none :=
  map_toNat_appendDigits? hd (by decide)

theorem eq_some_iff_of_map_toNat {found : Option UInt64} {n bound : Nat}
    (h : found.map UInt64.toNat = if n ≤ bound then some n else none) {word : UInt64} :
    found = some word ↔ word.toNat = n ∧ n ≤ bound := by
  constructor
  · rintro rfl
    rw [Option.map_some] at h
    split at h
    next hl => exact ⟨Option.some.inj h, hl⟩
    next => cases h
  · rintro ⟨hw, hl⟩
    rw [if_pos hl] at h
    obtain ⟨word', rfl, hw'⟩ := Option.map_eq_some_iff.1 h
    rw [UInt64.toNat_inj.1 (hw.trans hw'.symm)]

/-- **A run of digits is read exactly if its value is within the limit.** -/
theorem bounded?_eq_some_iff {digits : List Char} (hd : IsRun Char.isDigit digits)
    {word : UInt64} :
    bounded? digits = some word ↔ word.toNat = value digits ∧ value digits ≤ limit.toNat :=
  eq_some_iff_of_map_toNat (map_toNat_bounded? hd)

/-! ## Values and lengths -/

theorem value_cons (digit : Char) (digits : List Char) :
    value (digit :: digits) = digitValue digit * 10 ^ digits.length + value digits := by
  rw [value, Nat.ofDigitChars_cons, Nat.ofDigitChars_eq_ofDigitChars_zero, Nat.mul_zero,
    Nat.zero_add, Nat.mul_comm, digitValue, value]

theorem value_append (digits rest : List Char) :
    value (digits ++ rest) = value digits * 10 ^ rest.length + value rest := by
  rw [value, Nat.ofDigitChars_append, Nat.ofDigitChars_eq_ofDigitChars_zero, Nat.mul_comm, value,
    value]

theorem value_lt_pow_length {digits : List Char} (h : IsRun Char.isDigit digits) :
    value digits < 10 ^ digits.length := by
  induction digits with
  | nil => decide
  | cons digit digits ih =>
      obtain ⟨hd, h⟩ := isRun_cons.1 h
      have hrest := ih h
      have hnine : digitValue digit * 10 ^ digits.length ≤ 9 * 10 ^ digits.length :=
        Nat.mul_le_mul_right _ (digitValue_le hd)
      rw [value_cons, List.length_cons, Nat.pow_succ]
      omega

theorem digitValue_pos {digit : Char} (h : digit.isDigit = true) (hz : digit ≠ '0') :
    0 < digitValue digit := by
  simp only [Char.isDigit, Bool.and_eq_true, decide_eq_true_eq] at h
  have hlow : 48 ≤ digit.val.toNat := UInt32.le_iff_toNat_le.1 h.1
  have hne : digit.val.toNat ≠ 48 := fun he => hz (Char.ext (UInt32.toNat_inj.1 he))
  show 0 < digit.val.toNat - 48
  omega

theorem pow_length_le_value {digit : Char} {digits : List Char} (h : digit.isDigit = true)
    (hz : digit ≠ '0') : 10 ^ digits.length ≤ value (digit :: digits) := by
  have hpos : 0 < digitValue digit := digitValue_pos h hz
  have hle : 1 * 10 ^ digits.length ≤ digitValue digit * 10 ^ digits.length :=
    Nat.mul_le_mul_right _ hpos
  rw [value_cons]
  omega

/-! ## Fixed point -/

/-- A whole number and the digits after its point as one integer, `places` places to the left: the
first `places` digits count, zeros where there are fewer, and the other digits do not. -/
def fixedPoint (places whole : Nat) (digits : List Char) : Nat :=
  whole * 10 ^ places + ∑ i ∈ Finset.range (min digits.length places),
    digitValue (digits.getD i '0') * 10 ^ (places - (i + 1))

theorem fixedPoint_zero (whole : Nat) (digits : List Char) : fixedPoint 0 whole digits = whole := by
  simp [fixedPoint]

theorem fixedPoint_nil (places whole : Nat) : fixedPoint places whole [] = whole * 10 ^ places := by
  simp [fixedPoint]

theorem fixedPoint_succ (places whole : Nat) (digits : List Char) :
    fixedPoint (places + 1) whole digits =
      fixedPoint places (whole * 10 + digitValue (digits.head?.getD '0')) digits.tail := by
  cases digits with
  | nil =>
      simp only [fixedPoint_nil, List.head?_nil, Option.getD_none, List.tail_nil, digitValue,
        Nat.sub_self]
      ring
  | cons digit digits =>
      simp only [fixedPoint, List.length_cons, Nat.succ_min_succ, Finset.sum_range_succ',
        List.getD_cons_succ, List.getD_cons_zero, Nat.add_sub_add_right, List.head?_cons,
        Option.getD_some, List.tail_cons, Nat.sub_zero]
      ring

theorem le_fixedPoint (places whole : Nat) (digits : List Char) :
    whole ≤ fixedPoint places whole digits := by
  have h : whole * 1 ≤ whole * 10 ^ places := Nat.mul_le_mul_left _ (Nat.pow_pos (by decide))
  rw [fixedPoint]
  omega

/-- **A number in fixed point is all its digits in a row, moved to the left and cut off.** -/
theorem fixedPoint_eq_div {digits : List Char} (hd : IsRun Char.isDigit digits)
    (places whole : Nat) :
    fixedPoint places whole digits =
      (whole * 10 ^ digits.length + value digits) * 10 ^ places / 10 ^ digits.length := by
  induction places generalizing whole digits with
  | zero =>
      have hv : value digits < 10 ^ digits.length := value_lt_pow_length hd
      rw [fixedPoint_zero, pow_zero, Nat.mul_one, Nat.mul_comm whole,
        Nat.mul_add_div (Nat.pow_pos (by decide)), Nat.div_eq_of_lt hv, Nat.add_zero]
  | succ places ih =>
      cases digits with
      | nil => simp [fixedPoint_nil, value]
      | cons digit digits =>
          have hrow : whole * 10 ^ (digits.length + 1) + value (digit :: digits) =
              (whole * 10 + digitValue digit) * 10 ^ digits.length + value digits := by
            rw [value_cons]
            ring
          rw [fixedPoint_succ, List.head?_cons, Option.getD_some, List.tail_cons,
            ih (isRun_cons.1 hd).2, List.length_cons, hrow, pow_succ 10 places,
            pow_succ 10 digits.length, ← Nat.mul_assoc, Nat.mul_div_mul_right _ _ (by decide)]

theorem fixedPoint_length {digits : List Char} (hd : IsRun Char.isDigit digits) (whole : Nat) :
    fixedPoint digits.length whole digits = whole * 10 ^ digits.length + value digits := by
  rw [fixedPoint_eq_div hd, Nat.mul_div_cancel _ (Nat.pow_pos (by decide))]

/-- Fewer places are the same number, cut off earlier. -/
theorem fixedPoint_div_pow {digits : List Char} (hd : IsRun Char.isDigit digits)
    {places more : Nat} (h : places ≤ more) (whole : Nat) :
    fixedPoint more whole digits / 10 ^ (more - places) = fixedPoint places whole digits := by
  have hpow : 10 ^ more = 10 ^ places * 10 ^ (more - places) := by
    rw [← pow_add, Nat.add_sub_cancel' h]
  rw [fixedPoint_eq_div hd, fixedPoint_eq_div hd, Nat.div_div_eq_div_mul, hpow, ← Nat.mul_assoc,
    Nat.mul_div_mul_right _ _ (Nat.pow_pos (by decide))]

theorem fixedPoint_mono {digits : List Char} (hd : IsRun Char.isDigit digits)
    {places more : Nat} (h : places ≤ more) (whole : Nat) :
    fixedPoint places whole digits ≤ fixedPoint more whole digits := by
  rw [← fixedPoint_div_pow hd h whole]
  exact Nat.div_le_self _ _

theorem fixedPoint_div {digits : List Char} (hd : IsRun Char.isDigit digits) (places whole : Nat) :
    fixedPoint places whole digits / 10 ^ places = whole := by
  have h := fixedPoint_div_pow hd (Nat.zero_le places) whole
  rwa [Nat.sub_zero, fixedPoint_zero] at h

theorem fixedPoint_lt {digits : List Char} (hd : IsRun Char.isDigit digits)
    (places whole : Nat) : fixedPoint places whole digits < (whole + 1) * 10 ^ places := by
  have hv : value digits < 10 ^ digits.length := value_lt_pow_length hd
  have hrow : whole * 10 ^ digits.length + value digits < (whole + 1) * 10 ^ digits.length := by
    rw [Nat.add_mul, Nat.one_mul]
    omega
  rw [fixedPoint_eq_div hd, Nat.div_lt_iff_lt_mul (Nat.pow_pos (by decide)), Nat.mul_right_comm]
  exact Nat.mul_lt_mul_of_pos_right hrow (Nat.pow_pos (by decide))

/-- **The fixed-point reader finds the fixed-point value, and none exactly if that is past the
limit.** -/
theorem map_toNat_fixed? {digits : List Char} (hd : IsRun Char.isDigit digits) {word : UInt64}
    (hw : word ≤ limit) (places : Nat) :
    (fixed? places word digits).map UInt64.toNat =
      if fixedPoint places word.toNat digits ≤ limit.toNat then
        some (fixedPoint places word.toNat digits) else none := by
  induction places generalizing word digits with
  | zero =>
      rw [fixedPoint_zero, if_pos (UInt64.le_iff_toNat_le.1 hw)]
      rfl
  | succ places ih =>
      have hc : (digits.head?.getD '0').isDigit = true := by
        cases digits with
        | nil => decide
        | cons digit digits => exact (isRun_cons.1 hd).1
      have ht : IsRun Char.isDigit digits.tail := fun c h => hd c (List.mem_of_mem_tail h)
      have hp := toNat_push hw hc
      rw [fixedPoint_succ, ← hp, fixed?]
      by_cases hl : limit < push word (digits.head?.getD '0')
      · have hle := le_fixedPoint places (push word (digits.head?.getD '0')).toNat digits.tail
        rw [UInt64.lt_iff_toNat_lt] at hl
        rw [if_pos (UInt64.lt_iff_toNat_lt.2 hl), if_neg (by omega)]
        rfl
      · rw [if_neg hl]
        exact ih ht (UInt64.not_lt.1 hl)

theorem fixed?_eq_some_iff {digits : List Char} (hd : IsRun Char.isDigit digits) {word : UInt64}
    (hw : word ≤ limit) (places : Nat) {result : UInt64} :
    fixed? places word digits = some result ↔
      result.toNat = fixedPoint places word.toNat digits ∧
        fixedPoint places word.toNat digits ≤ limit.toNat :=
  eq_some_iff_of_map_toNat (map_toNat_fixed? hd hw places)

theorem fixed?_eq_none_iff {digits : List Char} (hd : IsRun Char.isDigit digits) {word : UInt64}
    (hw : word ≤ limit) (places : Nat) :
    fixed? places word digits = none ↔ limit.toNat < fixedPoint places word.toNat digits := by
  rw [← Option.map_eq_none_iff (f := UInt64.toNat), map_toNat_fixed? hd hw places]
  simp

/-! ## Writing a number -/

theorem value_render (n : Nat) : value (render n) = n := Nat.ofDigitChars_ten_toDigits

theorem isRun_render (n : Nat) : IsRun Char.isDigit (render n) :=
  fun _ h => Nat.isDigit_of_mem_toDigits (by decide) (by decide) h

theorem render_ne_nil (n : Nat) : render n ≠ [] := Nat.toDigits_ne_nil

/-- A number is written without a superfluous zero in front: behind one, fewer digits would do. -/
theorem render_eq_of_head? {n : Nat} (h : (render n).head? = some '0') : render n = ['0'] := by
  obtain ⟨rest, hrest⟩ := List.head?_eq_some_iff.1 h
  cases rest with
  | nil => exact hrest
  | cons digit rest =>
      have hrun := isRun_render n
      have hvalue := value_render n
      rw [hrest] at hrun hvalue
      rw [value_cons, digitValue, Nat.sub_self, Nat.zero_mul, Nat.zero_add] at hvalue
      have hlt := value_lt_pow_length (isRun_cons.1 hrun).2
      rw [hvalue] at hlt
      have hpos : 0 < (digit :: rest).length := Nat.succ_pos _
      have hlength : (render n).length ≤ (digit :: rest).length :=
        (Nat.length_toDigits_le_iff (by decide) hpos).2 hlt
      rw [hrest] at hlength
      exact absurd hlength (Nat.not_succ_le_self _)

end GCode.Numeral
