import GCode.Proofs.Decimal.Rendering
import GCode.Proofs.Guarded.Basic
import GCode.Proofs.Number.Packing

/-!
# The text of a decimal is exact

A decimal is written with the quotient and the remainder of its magnitude by a power of ten, in
64-bit words. Up to 19 places the power fits. The remainder has no more digits than there are
places, so the zeros in front of it fill up the places, and all digits in a row are the magnitude
again. That is why a decimal can be told from its text: it shows the sign, the digits and the
places.

* `Guarded.decimalText_eq`, `Guarded.decimalText_eq_error`: up to 19 places the text is found in
  words, beyond them the power of ten does not fit.
* `Decimal.spells_written`: the parts of the text.
* `Decimal.ofText?_text`: the text read as a number has the sign, the magnitude and the places of
  the decimal.
* `Decimal.text_exact`: all of it together, with the decimals that have the same text.
-/

namespace GCode

open Text Numeral

def Exact.toRat (x : Exact) : ℚ := Number.signFactor x.negative * x.digits / 10 ^ x.places

theorem Decimal.scale_eq_zero_iff {d : Decimal} : d.scale = 0 ↔ d.scale.toNat = 0 := by
  rw [← UInt8.toNat_inj]
  rfl

/-! ## In 64-bit words -/

namespace Guarded

def decimalText (d : Decimal) : Except Fault (List Char) := do
  let magnitude ← uint64 d.mantissa.toInt.natAbs
  let sign := if d.mantissa < 0 then ['-'] else []
  if d.scale = 0 then pure (sign ++ render magnitude.toNat)
  else do
    let divisor ← uint64 (10 ^ d.scale.toNat)
    pure (sign ++ render (magnitude / divisor).toNat ++
      '.' :: Decimal.padLeft d.scale.toNat (render (magnitude % divisor).toNat))

theorem natAbs_toInt_le (mantissa : Int64) : mantissa.toInt.natAbs ≤ 18446744073709551615 := by
  have hlow := mantissa.le_toInt
  have hhigh := mantissa.toInt_lt
  omega

variable {d : Decimal}

/-- **Up to 19 places the text of a decimal is found in words.** -/
theorem decimalText_eq (h : d.scale.toNat ≤ 19) : decimalText d = .ok d.text := by
  have hpow : 10 ^ d.scale.toNat ≤ 18446744073709551615 :=
    Nat.le_trans (Nat.pow_le_pow_right (by decide) h) (by decide)
  obtain ⟨magnitude, hmagnitude, hm⟩ := exists_uint64_eq (natAbs_toInt_le d.mantissa)
  obtain ⟨divisor, hdivisor, hd⟩ := exists_uint64_eq hpow
  simp only [decimalText, hmagnitude, hdivisor, ok_bind, UInt64.toNat_div, UInt64.toNat_mod, hm, hd,
    Decimal.scale_eq_zero_iff, Decimal.text, Decimal.magnitude, Decimal.isNegative,
    decide_eq_true_eq]
  split <;> rfl

/-- **Beyond 19 places the power of ten does not fit.** -/
theorem decimalText_eq_error (h : 19 < d.scale.toNat) : decimalText d = .error .overflow := by
  have hpow : 18446744073709551615 < 10 ^ d.scale.toNat :=
    Nat.lt_of_lt_of_le (by decide : 18446744073709551615 < 10 ^ 20)
      (Nat.pow_le_pow_right (by decide) h)
  obtain ⟨magnitude, hmagnitude, -⟩ := exists_uint64_eq (natAbs_toInt_le d.mantissa)
  have hzero : ¬d.scale = 0 := fun hscale => by
    rw [Decimal.scale_eq_zero_iff] at hscale
    omega
  rw [decimalText, hmagnitude, ok_bind, if_neg hzero, uint64_eq_error hpow]
  rfl

end Guarded

namespace Decimal

variable {d e : Decimal}

/-! ## The parts of the text -/

/-- How a decimal is spelled: a minus if it is negative, whole digits without superfluous zeros, and
behind a point one digit for every place, without places no point either. -/
structure Spells (d : Decimal) (whole places : List Char) : Prop where
  text_eq : d.text = (if d.mantissa < 0 then ['-'] else []) ++ whole ++
    (if d.scale = 0 then [] else '.' :: places)
  isRun_whole : IsRun Char.isDigit whole
  whole_ne_nil : whole ≠ []
  whole_of_head? : whole.head? = some '0' → whole = ['0']
  isRun_places : IsRun Char.isDigit places
  length_places : places.length = d.scale.toNat

theorem isRun_places_written (d : Decimal) : IsRun Char.isDigit d.written.places := by
  rw [places_written]
  split
  · exact isRun_nil
  · exact d.isRun_places

/-- **A decimal is spelled with the digits of the number that it is written as.** -/
theorem spells_written (d : Decimal) : d.Spells d.written.whole d.written.places where
  text_eq := by
    rw [places_written]
    by_cases h : d.scale.toNat = 0
    · simp [text, isNegative, written, Number.ofParts, scale_eq_zero_iff, h]
    · simp [text, isNegative, written, Number.ofParts, places, scale_eq_zero_iff, h]
  isRun_whole := isRun_render _
  whole_ne_nil := render_ne_nil _
  whole_of_head? := render_eq_of_head?
  isRun_places := d.isRun_places_written
  length_places := d.length_places_written

/-! ## The text read as a number -/

theorem value_written (d : Decimal) :
    value (d.written.whole ++ d.written.places) = d.magnitude := by
  have hall := d.fixedPoint_written
  rw [← d.length_places_written, fixedPoint_length d.isRun_places_written] at hall
  rw [value_append, hall]

/-- **The text of a decimal, read as a number, has its sign, its magnitude and its places.** -/
theorem ofText?_text (d : Decimal) :
    Exact.ofText? d.text = some ⟨d.isNegative, d.magnitude, d.scale.toNat⟩ := by
  obtain ⟨htext, hwhole, hne, -, hplaces, hlength⟩ := d.spells_written
  obtain ⟨sign, hsign, hnegative⟩ : ∃ sign : Option Sign,
      (if d.mantissa < 0 then ['-'] else []) = sign.toList.map Sign.char ∧
        decide (sign = some .minus) = d.isNegative := by
    by_cases hn : d.mantissa < 0
    · exact ⟨some .minus, if_pos hn, (decide_eq_true hn).symm⟩
    · exact ⟨none, if_neg hn, (decide_eq_false hn).symm⟩
  have hvalue := d.value_written
  rw [htext, hsign, List.append_assoc]
  by_cases h : d.scale = 0
  · have hzero := scale_eq_zero_iff.1 h
    rw [hzero] at hlength
    rw [List.eq_nil_of_length_eq_zero hlength, List.append_nil] at hvalue
    rw [if_pos h, List.append_nil, Exact.ofText?_of_run sign hwhole hne, hnegative, hvalue, hzero]
  · rw [if_neg h, Exact.ofText?_of_digits sign hwhole hplaces (fun hnil => absurd hnil hne),
      hnegative, hvalue, hlength]

theorem toRat_text (d : Decimal) : (Exact.ofText? d.text).map Exact.toRat = some d.toRat := by
  rw [ofText?_text, Option.map_some, Exact.toRat, toRat, d.toInt_mantissa_eq]
  push_cast
  rfl

/-- **Two decimals have the same text only if they are the same.** -/
theorem text_inj : d.text = e.text ↔ d = e := by
  constructor
  · intro h
    have hread := d.ofText?_text
    rw [h, e.ofText?_text] at hread
    obtain ⟨hnegative, hmagnitude, hscale⟩ := Exact.mk.inj (Option.some.inj hread)
    refine ext ?_ (UInt8.toNat_inj.1 hscale.symm)
    rw [← Int64.toInt_inj, d.toInt_mantissa_eq, e.toInt_mantissa_eq, hnegative, hmagnitude]
  · rintro rfl
    rfl

/-! ## All decimals -/

/-- **A decimal is written exactly.** Up to 19 places the words do not overflow, the text has a
minus, digits and a point just where the decimal asks for them, and read as a number it denotes the
mantissa divided by a power of ten. No two of these decimals have the same text. -/
theorem text_exact :
    (∀ d : Decimal, d.scale.toNat ≤ 19 →
      Guarded.decimalText d = .ok d.text ∧
      (∃ whole places, d.Spells whole places) ∧
      (Exact.ofText? d.text).map Exact.toRat =
        some ((d.mantissa.toInt : ℚ) / 10 ^ d.scale.toNat)) ∧
    ∀ d e : Decimal, d.scale.toNat ≤ 19 → e.scale.toNat ≤ 19 → (d.text = e.text ↔ d = e) := by
  constructor
  · intro d hd
    exact ⟨Guarded.decimalText_eq hd, ⟨_, _, d.spells_written⟩, d.toRat_text⟩
  · intro d e _ _
    exact text_inj

/-- The least mantissa with as many places as there can be, and two decimals of the same value. -/
theorem text_exact_least :
    Guarded.decimalText ⟨Int64.minValue, 19⟩ = .ok "-0.9223372036854775808".toList ∧
      (Exact.ofText? "-0.9223372036854775808".toList).map Exact.toRat =
        some (-9223372036854775808 / 10 ^ 19) ∧
      (Decimal.mk 12 1).text ≠ (Decimal.mk 120 2).text := by
  obtain ⟨hexact, hinj⟩ := text_exact
  obtain ⟨hwords, -, hrat⟩ := hexact ⟨Int64.minValue, 19⟩ (by decide)
  have htext : (Decimal.mk Int64.minValue 19).text = "-0.9223372036854775808".toList := by
    decide +kernel
  rw [htext] at hwords hrat
  refine ⟨hwords, ?_, ?_⟩
  · have hmin : Int64.minValue.toInt = -9223372036854775808 := rfl
    have hscale : (19 : UInt8).toNat = 19 := rfl
    rw [hrat, hmin, hscale]
    norm_num
  · rw [ne_eq, hinj _ _ (by decide) (by decide)]
    decide

end Decimal
end GCode
