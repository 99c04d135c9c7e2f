import GCode.Field.Reading
import GCode.Proofs.Field.Cases
import Mathlib.Tactic.IntervalCases

/-!
# The integers of a number

The whole digits of a number, and the number in fixed point, are read through three different
computations: one product for a number without places, a fold over its digits for one with places,
and a sign at the end. All are in words of the machine, and none of them wraps.

* `Number.toInt_toInt`: the integer is the value of the whole digits under the sign.
* `Number.map_toInt_scaled?`: the scaled integer is the value in fixed point under the sign, and it
  is absent exactly if that value is past the limit.
* `Field.integers_of_read?`: both for the number of any field, which is the same number for all
  settings.
-/

namespace GCode

open Text Numeral

/-! ## Words of the machine -/

theorem toInt_toInt32 {word : UInt64} (h : word.toNat ≤ limit.toNat) :
    word.toInt64.toInt32.toInt = word.toNat := by
  have hl := toNat_limit
  rw [← UInt64.ofNat_toNat (x := word), UInt64.toInt64_ofNat', Int64.toInt32_ofNat',
    UInt64.ofNat_toNat, Int32.toInt_ofNat_of_lt (by omega)]

theorem toInt_neg {x : Int32} (h : 0 ≤ x.toInt) : (-x).toInt = -x.toInt := by
  have hlt := x.toInt_lt
  rw [Int32.toInt_neg]
  exact Int.bmod_eq_of_le (by omega) (by omega)

namespace Settings

theorem toInt_scaleFactor (settings : Settings) :
    settings.scaleFactor.toInt = (10 ^ settings.scale : Nat) := by
  have h : settings.scale ≤ 5 := settings.scale_le
  rw [scaleFactor]
  interval_cases settings.scale <;> rfl

theorem toInt_maxScalable (settings : Settings) :
    settings.maxScalable.toInt = (limit.toNat / 10 ^ settings.scale : Nat) := by
  have h : settings.scale ≤ 5 := settings.scale_le
  rw [maxScalable, scaleFactor]
  interval_cases settings.scale <;> rfl

end Settings

namespace Number

/-! ## The integers of a number -/

def signFactor (negative : Bool) : Int := if negative then -1 else 1

def signum (n : Number) : Int := signFactor n.isNegative

theorem toInt_applySign (negative : Bool) {word : UInt64} (h : word.toNat ≤ limit.toNat) :
    (applySign negative word).toInt = signFactor negative * word.toNat := by
  have hw := toInt_toInt32 h
  cases negative with
  | false => simpa [applySign, signFactor] using hw
  | true =>
      have hn : (-word.toInt64.toInt32).toInt = -word.toNat := by
        rw [toInt_neg (by omega), hw]
      simpa [applySign, signFactor] using hn

/-- **The integer of a number is the value of its whole digits under its sign.** -/
theorem toInt_toInt {n : Number} (hw : n.WellFormed) :
    n.toInt.toInt = n.signum * value n.whole := by
  have hl : n.integral.toNat ≤ limit.toNat := by
    rw [hw.toNat_integral]
    exact hw.value_le
  rw [toInt, toInt_applySign n.isNegative hl, hw.toNat_integral, signum]

/-- A whole number is above the largest one exactly if the product is past the limit. -/
theorem maxScalable_lt_iff (settings : Settings) {word : UInt64} (h : word.toNat ≤ limit.toNat) :
    settings.maxScalable < word.toInt64.toInt32 ↔
      limit.toNat < word.toNat * 10 ^ settings.scale := by
  rw [Int32.lt_iff_toInt_lt, settings.toInt_maxScalable, toInt_toInt32 h, Int.ofNat_lt,
    Nat.div_lt_iff_lt_mul (Nat.pow_pos (by decide))]

theorem toInt_mul_scaleFactor (settings : Settings) {word : UInt64}
    (h : word.toNat ≤ limit.toNat) (hp : word.toNat * 10 ^ settings.scale ≤ limit.toNat) :
    (word.toInt64.toInt32 * settings.scaleFactor).toInt =
      (word.toNat * 10 ^ settings.scale : Nat) := by
  have hlimit := toNat_limit
  rw [Int32.toInt_mul, toInt_toInt32 h, settings.toInt_scaleFactor, ← Int.natCast_mul]
  exact Int.bmod_eq_of_le (by omega) (by omega)

theorem map_toInt_scaleWhole? (settings : Settings) (negative : Bool) {word : UInt64}
    (h : word.toNat ≤ limit.toNat) :
    (scaleWhole? settings negative word).map Int32.toInt =
      if word.toNat * 10 ^ settings.scale ≤ limit.toNat then
        some (signFactor negative * (word.toNat * 10 ^ settings.scale : Nat)) else none := by
  have hmax := maxScalable_lt_iff settings h
  unfold scaleWhole?
  by_cases hl : limit.toNat < word.toNat * 10 ^ settings.scale
  · rw [if_pos (hmax.2 hl), if_neg (by omega)]
    rfl
  · have hp := toInt_mul_scaleFactor settings h (Nat.le_of_not_lt hl)
    rw [if_neg (fun hc => hl (hmax.1 hc)), if_pos (by omega), Option.map_some]
    cases negative with
    | false =>
        rw [signFactor, if_neg (by decide), if_neg (by decide), hp, Int.one_mul]
    | true =>
        rw [signFactor, if_pos rfl, if_pos rfl, toInt_neg (by omega), hp, Int.neg_one_mul]

/-- **The scaled integer is the value in fixed point under the sign, and absent exactly if that
value is past the limit.** -/
theorem map_toInt_scaled? {n : Number} (hw : n.WellFormed) (settings : Settings) :
    (n.scaled? settings).map Int32.toInt =
      if fixedPoint settings.scale (value n.whole) n.places ≤ limit.toNat then
        some (n.signum * (fixedPoint settings.scale (value n.whole) n.places : Nat)) else none := by
  have hl : n.integral.toNat ≤ limit.toNat := by
    rw [hw.toNat_integral]
    exact hw.value_le
  unfold scaled?
  split
  next hp =>
    rw [map_toInt_scaleWhole? settings n.isNegative hl, hw.toNat_integral, hp, fixedPoint_nil,
      signum]
  next =>
    have hf := map_toNat_fixed? hw.isRun_places (UInt64.le_iff_toNat_le.2 hl) settings.scale
    rw [hw.toNat_integral] at hf
    by_cases hv : fixedPoint settings.scale (value n.whole) n.places ≤ limit.toNat
    · rw [if_pos hv] at hf ⊢
      obtain ⟨word, hword, hval⟩ := Option.map_eq_some_iff.1 hf
      rw [hword, Option.map_some, Option.map_some, toInt_applySign n.isNegative (hval ▸ hv), hval,
        signum]
    · rw [if_neg hv] at hf ⊢
      rw [Option.map_eq_none_iff.1 hf]
      rfl

end Number

/-! ## The integers of a field -/

namespace Field

variable {settings : Settings} {line tail : List Char} {field : Field}

theorem integer_of_number {n : Number} {scaled : Option Int32}
    (ha : field.argument = .number n scaled) : field.integer = .ok n.toInt := by
  rw [integer, ha]

theorem kind_number_eq (n : Number) (scaled scaled' : Option Int32) :
    (Argument.number n scaled).kind = (Argument.number n scaled').kind :=
  rfl

theorem map_toInt_scaled {n : Number} (hw : n.WellFormed)
    (ha : field.argument = .number n (n.scaled? settings)) :
    field.scaled.map Int32.toInt =
      if fixedPoint settings.scale (value n.whole) n.places ≤ 2147483647 then
        .ok (n.signum * (fixedPoint settings.scale (value n.whole) n.places : Nat))
      else .error .scaledOverflow := by
  have hs := Number.map_toInt_scaled? hw settings
  by_cases hv : fixedPoint settings.scale (value n.whole) n.places ≤ limit.toNat
  · rw [if_pos hv] at hs
    obtain ⟨word, hword, hval⟩ := Option.map_eq_some_iff.1 hs
    rw [if_pos (toNat_limit ▸ hv), scaled, ha, hword, ← hval]
    rfl
  · rw [if_neg hv] at hs
    rw [if_neg (toNat_limit ▸ hv), scaled, ha, Option.map_eq_none_iff.1 hs]
    rfl

/-- **The integers of a field with a number.** The number is the one that the text of the field
writes, with all its blanks, leading zeros and places. The integer is its whole digits, the scaled
integer the value in fixed point, refused exactly if it is past the limit. Under other settings,
which may scale it past the limit or not, the field has the same text, kind and integer and ends in
the same place. -/
theorem integers_of_read? (h : read? settings line = some (field, tail))
    (hk : field.kind.isNumeric = true) :
    ∃ n : Number, n.WellFormed ∧ field.raw = field.letter :: n.text ∧
      (∀ m : Number, m.WellFormed → field.raw = field.letter :: m.text → m = n) ∧
      field.integer.map Int32.toInt = .ok (n.signum * value n.whole) ∧
      (field.scaled.map Int32.toInt =
        if fixedPoint settings.scale (value n.whole) n.places ≤ 2147483647 then
          .ok (n.signum * (fixedPoint settings.scale (value n.whole) n.places : Nat))
        else .error .scaledOverflow) ∧
      ∀ other : Settings, ∃ field', read? other line = some (field', tail) ∧
        field'.raw = field.raw ∧ field'.kind = field.kind ∧ field'.integer = field.integer := by
  obtain ⟨rest, n, rfl, hl, -, hr, ha⟩ := exists_number_of_read? h hk
  have hw : n.WellFormed := (Number.read?_eq_some_iff.1 hr).1
  have hraw : field.raw = field.letter :: n.text := by rw [raw, ha, Argument.text]
  have hint : field.integer = .ok n.toInt := integer_of_number ha
  refine ⟨n, hw, hraw, ?_, ?_, ?_, ?_⟩
  · intro m hm hmraw
    rw [hraw] at hmraw
    exact hm.text_inj hw (List.cons.inj hmraw).2.symm
  · rw [hint, Except.map, Number.toInt_toInt hw]
  · exact map_toInt_scaled hw ha
  · intro other
    refine ⟨_, read?_cons_of_number hl hr, hraw.symm, ?_, ?_⟩
    · rw [kind, kind, ha, kind_number_eq]
    · rw [hint]
      exact integer_of_number rfl

/-- A number whose places push it past the limit, with blanks around its point. -/
def overflowing : Field :=
  ⟨'x', 'X', .number ⟨[' '], some .minus, [' '], "021474".toList, 21474,
    some ⟨[' '], ['\t'], "836489".toList⟩⟩ none⟩

theorem integers_overflowing :
    read? { scale := 5 } "x - 021474 .\t836489Y".toList = some (overflowing, ['Y']) ∧
      overflowing.kind.isNumeric = true ∧
      ∃ n : Number, n.WellFormed ∧ overflowing.raw = overflowing.letter :: n.text ∧
        (∀ m : Number, m.WellFormed → overflowing.raw = overflowing.letter :: m.text → m = n) ∧
        overflowing.integer.map Int32.toInt = .ok (n.signum * value n.whole) ∧
        (overflowing.scaled.map Int32.toInt =
          if fixedPoint 5 (value n.whole) n.places ≤ 2147483647 then
            .ok (n.signum * (fixedPoint 5 (value n.whole) n.places : Nat))
          else .error .scaledOverflow) ∧
        ∀ other : Settings, ∃ field',
          read? other "x - 021474 .\t836489Y".toList = some (field', ['Y']) ∧
            field'.raw = overflowing.raw ∧ field'.kind = overflowing.kind ∧
            field'.integer = overflowing.integer :=
  ⟨by decide, by decide, integers_of_read?
    (by decide : read? { scale := 5 } "x - 021474 .\t836489Y".toList = some (overflowing, ['Y']))
    (by decide)⟩

end Field
end GCode
