import GCode.Proofs.Number.Decimal
import GCode.Proofs.Number.Grammar

/-!
# Decimals as they are written

A decimal is written as a number: its sign, the digits before its point and exactly as many digits
after it as it has places. Behind a word that number is read again, and if the decimal is one that a
number can have (`Decimal.IsReadable`), its decimal is the one that was written. The decimal of any
number that has been read is of that kind, so writing and reading it again leads back to it.

* `Decimal.text_written`: the text of a decimal is that of a number, `Decimal.written`.
* `Decimal.toDecimal_written`: a readable decimal is the decimal of the number it is written as.
* `Decimal.isReadable_toDecimal`: the decimal of a number is readable.
* `Field.decimal_round_trip`: both directions, for the fields of a line.
-/

namespace GCode

open Text Numeral

namespace Decimal

/-! ## Digits of a fixed length -/

theorem length_padLeft {length : Nat} {digits : List Char} (h : digits.length ≤ length) :
    (padLeft length digits).length = length := by
  rw [padLeft, List.length_append, List.length_replicate]
  omega

theorem value_padLeft (length : Nat) (digits : List Char) :
    value (padLeft length digits) = value digits := by
  have hzeros : value (List.replicate (length - digits.length) '0') = 0 := by
    rw [value, Nat.ofDigitChars_replicate_zero, Nat.mul_zero]
  rw [padLeft, value_append, hzeros, Nat.zero_mul, Nat.zero_add]

theorem isRun_padLeft (length : Nat) {digits : List Char} (h : IsRun Char.isDigit digits) :
    IsRun Char.isDigit (padLeft length digits) := by
  refine isRun_append.2 ⟨?_, h⟩
  intro c hc
  rw [List.eq_of_mem_replicate hc]
  decide

theorem Keeps.eq_length {whole kept : Nat} {digits : List Char} (h : Keeps whole digits kept)
    (hd : IsRun Char.isDigit digits) (hlength : digits.length ≤ maxPlaces)
    (hfits : fixedPoint digits.length whole digits ≤ maxMagnitude) : kept = digits.length := by
  by_contra hne
  have hlt : kept < digits.length := Nat.lt_of_le_of_ne h.le_length hne
  have hpast : maxMagnitude < fixedPoint (kept + 1) whole digits :=
    h.maximal hlt (Nat.lt_of_lt_of_le hlt hlength)
  have hmono : fixedPoint (kept + 1) whole digits ≤ fixedPoint digits.length whole digits :=
    fixedPoint_mono hd hlt whole
  omega

/-! ## The number that a decimal is written as -/

/-- What a decimal is as long as a number can have it: its places, its mantissa and its whole part
are within the limits. -/
structure IsReadable (d : Decimal) : Prop where
  scale_le : d.scale.toNat ≤ 18
  mantissa_ne : d.mantissa ≠ Int64.minValue
  whole_le : d.magnitude / 10 ^ d.scale.toNat ≤ 2147483647

def places (d : Decimal) : List Char :=
  padLeft d.scale.toNat (render (d.magnitude % 10 ^ d.scale.toNat))

def point? (d : Decimal) : Option Point :=
  if d.scale.toNat = 0 then none else some ⟨[], [], d.places⟩

def written (d : Decimal) : Number :=
  Number.ofParts [] (if d.isNegative then some .minus else none) []
    (render (d.magnitude / 10 ^ d.scale.toNat)) d.point?

variable {d : Decimal}

theorem ext {again : Decimal} (hm : again.mantissa = d.mantissa) (hs : again.scale = d.scale) :
    again = d := by
  obtain ⟨mantissa, scale⟩ := again
  obtain rfl : mantissa = d.mantissa := hm
  obtain rfl : scale = d.scale := hs
  rfl

theorem isRun_places (d : Decimal) : IsRun Char.isDigit d.places :=
  isRun_padLeft _ (isRun_render _)

theorem length_places (h : d.scale.toNat ≠ 0) : d.places.length = d.scale.toNat := by
  refine length_padLeft ?_
  rw [render, Nat.length_toDigits_le_iff (by decide) (Nat.pos_of_ne_zero h)]
  exact Nat.mod_lt _ (Nat.pow_pos (by decide))

theorem text_written (d : Decimal) : d.written.text = d.text := by
  by_cases h : d.scale.toNat = 0
  · cases hn : d.isNegative <;>
      simp [written, point?, Number.ofParts, Number.text, Number.argument, text, Sign.char, h, hn]
  · cases hn : d.isNegative <;>
      simp [written, point?, Number.ofParts, Number.text, Number.argument, Point.text, places, text,
        Sign.char, h, hn]

theorem IsReadable.wellFormed_written (h : d.IsReadable) : d.written.WellFormed := by
  have hlimit := toNat_limit
  have hwhole : value (render (d.magnitude / 10 ^ d.scale.toNat)) ≤ limit.toNat := by
    rw [value_render, hlimit]
    exact h.whole_le
  have hpoint : ∀ p ∈ d.point?, p.WellFormed ∧ p.before = [] := by
    intro p hp
    rw [point?] at hp
    split at hp
    next => cases hp
    next hscale =>
      cases hp
      have hne : d.places ≠ [] := by
        intro hnil
        have hlength := length_places hscale
        rw [hnil] at hlength
        exact hscale hlength.symm
      exact ⟨⟨isRun_nil, isRun_nil, d.isRun_places, fun hnil => absurd hnil hne⟩, rfl⟩
  exact {
    gap := isRun_nil
    signGap := isRun_nil
    signGap_eq_nil := fun _ => rfl
    whole := isRun_render _
    toNat_integral := Number.toNat_integral_ofParts hwhole
    value_le := hwhole
    point := fun p hp => (hpoint p hp).1
    before_eq_nil := fun _ p hp => (hpoint p hp).2
    whole_ne_nil := fun _ => render_ne_nil _ }

theorem places_written (d : Decimal) :
    d.written.places = if d.scale.toNat = 0 then [] else d.places := by
  show (d.point?.map Point.digits).getD [] = _
  rw [point?]
  split <;> rfl

theorem fixedPoint_written (d : Decimal) :
    fixedPoint d.scale.toNat (value d.written.whole) d.written.places = d.magnitude := by
  have hwhole : value d.written.whole = d.magnitude / 10 ^ d.scale.toNat := value_render _
  rw [hwhole, places_written]
  by_cases h : d.scale.toNat = 0
  · rw [if_pos h, h, fixedPoint_zero, pow_zero, Nat.div_one]
  · have hvalue : value d.places = d.magnitude % 10 ^ d.scale.toNat := by
      rw [places, value_padLeft, value_render]
    have hall := fixedPoint_length d.isRun_places (d.magnitude / 10 ^ d.scale.toNat)
    rw [length_places h, hvalue] at hall
    rw [if_neg h, hall]
    exact Nat.div_add_mod' _ _

theorem length_places_written (d : Decimal) : d.written.places.length = d.scale.toNat := by
  rw [places_written]
  by_cases h : d.scale.toNat = 0
  · rw [if_pos h, h]
    rfl
  · rw [if_neg h, length_places h]

/-! ## Signs and magnitudes -/

theorem isNegative_iff : d.isNegative = true ↔ d.mantissa.toInt < 0 := by
  rw [isNegative, decide_eq_true_eq, Int64.lt_iff_toInt_lt]
  rfl

theorem toInt_mantissa_eq (d : Decimal) :
    d.mantissa.toInt = Number.signFactor d.isNegative * d.magnitude := by
  cases hn : d.isNegative with
  | true =>
      have hneg : d.mantissa.toInt < 0 := isNegative_iff.1 hn
      show d.mantissa.toInt = -1 * (d.mantissa.toInt.natAbs : Int)
      omega
  | false =>
      have hpos : ¬d.mantissa.toInt < 0 := fun h => by simp [isNegative_iff.2 h] at hn
      show d.mantissa.toInt = 1 * (d.mantissa.toInt.natAbs : Int)
      omega

theorem magnitude_le_iff : d.magnitude ≤ maxMagnitude ↔ d.mantissa ≠ Int64.minValue := by
  have hlow := d.mantissa.le_toInt
  have hhigh := d.mantissa.toInt_lt
  have hmin : Int64.minValue.toInt = -9223372036854775808 := rfl
  rw [ne_eq, ← Int64.toInt_inj, hmin]
  show d.mantissa.toInt.natAbs ≤ 9223372036854775807 ↔ _
  omega

/-! ## Writing and reading -/

/-- **A readable decimal is the decimal of the number it is written as.** -/
theorem toDecimal_written (h : d.IsReadable) : d.written.toDecimal = d := by
  have hw := h.wellFormed_written
  have hlength := d.length_places_written
  have hall := d.fixedPoint_written
  have hmagnitude : d.magnitude ≤ maxMagnitude := magnitude_le_iff.2 h.mantissa_ne
  have hnegative : d.written.isNegative = d.isNegative := by
    cases hn : d.isNegative <;> simp [Number.isNegative, written, Number.ofParts, hn]
  obtain ⟨hkeeps, hmantissa⟩ := Number.keeps_toDecimal hw
  have hscale : d.written.toDecimal.scale.toNat = d.scale.toNat := by
    rw [← hlength]
    refine hkeeps.eq_length hw.isRun_places ?_ ?_
    · rw [hlength]
      exact h.scale_le
    · rw [hlength, hall]
      exact hmagnitude
  rw [hscale, hall, Number.signum, hnegative, ← d.toInt_mantissa_eq] at hmantissa
  exact ext (Int64.toInt_inj.1 hmantissa) (UInt8.toNat_inj.1 hscale)

/-- **The decimal of a number is readable.** -/
theorem isReadable_toDecimal {n : Number} (hw : n.WellFormed) : n.toDecimal.IsReadable := by
  obtain ⟨hkeeps, hmantissa⟩ := Number.keeps_toDecimal hw
  have hmagnitude : n.toDecimal.magnitude =
      fixedPoint n.toDecimal.scale.toNat (value n.whole) n.places := by
    rw [magnitude, hmantissa, Number.signum, Number.natAbs_signFactor_mul]
  refine ⟨hkeeps.le_maxPlaces, ?_, ?_⟩
  · rw [← magnitude_le_iff, hmagnitude]
    exact hkeeps.fits
  · rw [hmagnitude, fixedPoint_div hw.isRun_places]
    exact hw.value_le

end Decimal

namespace Field

variable {settings : Settings} {line tail : List Char} {field : Field}

theorem exists_read?_text {d : Decimal} (hd : d.IsReadable) {letter : Char}
    (hl : isWord letter = true) (settings : Settings) :
    ∃ field, read? settings (letter :: d.text) = some (field, []) ∧ field.decimal = .ok d := by
  have hread := Number.read?_text_append hd.wellFormed_written d.written.ends_nil
  rw [List.append_nil, d.text_written] at hread
  refine ⟨_, read?_cons_of_number hl hread, ?_⟩
  exact congrArg Except.ok (Decimal.toDecimal_written hd)

/-- **A decimal is read back from its text.** Behind every word and under all settings, the text of
a readable decimal is a field with that decimal, all of it. The decimal of every field with a number
is readable, and so it is read back from its text. -/
theorem decimal_round_trip :
    (∀ d : Decimal, d.IsReadable → ∀ letter, isWord letter = true → ∀ settings,
      ∃ field, read? settings (letter :: d.text) = some (field, []) ∧ field.decimal = .ok d) ∧
    ∀ settings line field tail, read? settings line = some (field, tail) →
      field.kind.isNumeric = true →
      ∃ d, field.decimal = .ok d ∧ d.IsReadable ∧
        ∀ letter, isWord letter = true → ∀ other,
          ∃ again, read? other (letter :: d.text) = some (again, []) ∧ again.decimal = .ok d := by
  constructor
  · intro d hd letter hl settings
    exact exists_read?_text hd hl settings
  · intro settings line field tail h hk
    obtain ⟨rest, n, -, -, -, hr, ha⟩ := exists_number_of_read? h hk
    have hreadable : n.toDecimal.IsReadable :=
      Decimal.isReadable_toDecimal (Number.read?_eq_some_iff.1 hr).1
    refine ⟨n.toDecimal, by rw [decimal, ha], hreadable, ?_⟩
    intro letter hl other
    exact exists_read?_text hreadable hl other

/-- A negative decimal below one, with zeros behind its point and as many places as there can be. -/
def slight : Decimal := ⟨-50000000000000, 18⟩

theorem decimal_round_trip_slight :
    slight.IsReadable ∧ isWord 'E' = true ∧
      slight.text = "-0.000050000000000000".toList ∧
      (∃ field, read? {} "E-0.000050000000000000".toList = some (field, []) ∧
        field.decimal = .ok slight) ∧
      read? { scale := 5 } "x- 0021474. 836479999999999999999999Y".toList =
        some (abundant, ['Y']) ∧
      abundant.kind.isNumeric = true ∧
      ∃ d, abundant.decimal = .ok d ∧ d.IsReadable ∧
        ∀ letter, isWord letter = true → ∀ other,
          ∃ again, read? other (letter :: d.text) = some (again, []) ∧ again.decimal = .ok d := by
  have hd : slight.IsReadable := ⟨by decide, by decide, by decide⟩
  have ht : slight.text = "-0.000050000000000000".toList := by decide +kernel
  have hread := decimal_round_trip.1 slight hd 'E' (by decide) {}
  rw [ht] at hread
  have ha : read? { scale := 5 } "x- 0021474. 836479999999999999999999Y".toList =
      some (abundant, ['Y']) := by decide
  exact ⟨hd, by decide, ht, hread, ha, by decide, decimal_round_trip.2 _ _ _ _ ha (by decide)⟩

end Field
end GCode
