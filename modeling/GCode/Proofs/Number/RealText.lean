import GCode.Proofs.Field.Spacing
import GCode.Proofs.Guarded.Packing

/-!
# The texts that floating point is read from

Floating point is read from a text without blanks: the text of a compact real as it stands, or what
a spaced real is packed into. Reading gives up on a text that is no number, and on a number whose
whole digits overflow the buffer. Neither happens to a number that stands on a line: a digit is left
on one side of its point even if all zeros in front are dropped and the places are cut off, and the
limit on its whole digits keeps them far below the end of the buffer.

* `Exact.Rule`: digits with or without a point, perhaps behind a sign.
* `Exact.isSome_ofText?_iff`: exactly the texts of the rule have a value.
* `Number.rule_text`, `Number.exists_packed?_eq`: both texts keep to the rule.
* `Field.floats_of_read?`: every field with a number has a value in floating point.
-/

namespace GCode

open Text Numeral

/-! ## Texts with a value -/

namespace Exact

/-- Digits, digits with a point and perhaps digits behind it, or a point and digits. -/
inductive UnsignedRule : (text : List Char) → Prop
  | whole {digits : List Char} : digits ≠ [] → IsRun Char.isDigit digits → UnsignedRule digits
  | point {digits places : List Char} : digits ≠ [] → IsRun Char.isDigit digits →
      IsRun Char.isDigit places → UnsignedRule (digits ++ '.' :: places)
  | fraction {places : List Char} : places ≠ [] → IsRun Char.isDigit places →
      UnsignedRule ('.' :: places)

/-- The same, perhaps behind a sign. -/
inductive Rule : (text : List Char) → Prop
  | unsigned {text : List Char} : UnsignedRule text → Rule text
  | signed {text : List Char} (sign : Sign) : UnsignedRule text → Rule (sign.char :: text)

variable {text whole places : List Char}

theorem unsignedRule_of_digits (hw : IsRun Char.isDigit whole) (hp : IsRun Char.isDigit places)
    (hne : whole = [] → places ≠ []) : UnsignedRule (whole ++ '.' :: places) := by
  by_cases h : whole = []
  · rw [h]
    exact .fraction (hne h) hp
  · exact .point h hw hp

theorem rule_of_digits (sign : Option Sign) (hw : IsRun Char.isDigit whole)
    (hp : IsRun Char.isDigit places) (hne : whole = [] → places ≠ []) :
    Rule (sign.toList.map Sign.char ++ (whole ++ '.' :: places)) := by
  cases sign with
  | none => exact .unsigned (unsignedRule_of_digits hw hp hne)
  | some sign => exact .signed sign (unsignedRule_of_digits hw hp hne)

theorem UnsignedRule.stops (h : UnsignedRule text) : Stops Sign.isSign text := by
  cases h with
  | whole hne hd =>
      rw [← List.append_nil text]
      exact hd.stops isSign_eq_false_of_isDigit hne
  | point hne hd hp => exact hd.stops isSign_eq_false_of_isDigit hne
  | fraction hne hp => exact stops_cons.2 (by decide)

theorem isSome_ofUnsigned?_of_rule (negative : Bool) (h : UnsignedRule text) :
    (ofUnsigned? negative text).isSome = true := by
  have hdot (rest : List Char) : Stops Char.isDigit ('.' :: rest) := stops_cons.2 (by decide)
  cases h with
  | whole hne hd =>
      have htake := takeDigits_append hd stops_nil
      have hdrop := dropDigits_append hd stops_nil
      rw [List.append_nil] at htake hdrop
      simp only [ofUnsigned?, htake, hdrop, if_neg hne, Option.isSome_some]
  | @point digits places hne hd hp =>
      have hall : (places.all Char.isDigit && !(digits ++ places).isEmpty) = true := by
        rw [Bool.and_eq_true, List.all_eq_true]
        exact ⟨hp, by simp [hne]⟩
      simp only [ofUnsigned?, takeDigits_append hd (hdot places), dropDigits_append hd (hdot places),
        hall, if_true, Option.isSome_some]
  | @fraction places hne hp =>
      have htake := takeDigits_append isRun_nil (hdot places)
      have hdrop := dropDigits_append isRun_nil (hdot places)
      have hall : (places.all Char.isDigit && !([] ++ places).isEmpty) = true := by
        rw [Bool.and_eq_true, List.all_eq_true]
        exact ⟨hp, by simp [hne]⟩
      rw [List.nil_append] at htake hdrop
      simp only [ofUnsigned?, htake, hdrop, hall, if_true, Option.isSome_some]

theorem rule_of_isSome_ofUnsigned? {negative : Bool}
    (h : (ofUnsigned? negative text).isSome = true) : UnsignedRule text := by
  have hsplit := takeDigits_append_dropDigits text
  have hdigits := isRun_takeDigits text
  unfold ofUnsigned? at h
  dsimp only at h
  split at h
  next hdrop =>
    rw [hdrop, List.append_nil] at hsplit
    split at h
    next => cases h
    next hne =>
      rw [← hsplit]
      exact .whole hne hdigits
  next places hdrop =>
    rw [hdrop] at hsplit
    split at h
    next hall =>
      obtain ⟨hp, hne⟩ := Bool.and_eq_true_iff.1 hall
      rw [← hsplit]
      refine unsignedRule_of_digits hdigits (List.all_eq_true.1 hp) ?_
      intro hwhole hplaces
      rw [hwhole, hplaces] at hne
      cases hne
    next => cases h
  next => cases h

/-- **Exactly the texts of the rule have a value.** -/
theorem isSome_ofText?_iff : (ofText? text).isSome = true ↔ Rule text := by
  constructor
  · intro h
    obtain ⟨⟨negative, rest⟩, hs⟩ : ∃ split, splitSign text = split := ⟨_, rfl⟩
    rw [ofText?, hs] at h
    have hrule : UnsignedRule rest := rule_of_isSome_ofUnsigned? h
    unfold splitSign at hs
    split at hs
    next =>
      cases hs
      exact .signed .minus hrule
    next =>
      cases hs
      exact .signed .plus hrule
    next =>
      cases hs
      exact .unsigned hrule
  · intro h
    cases h with
    | unsigned hu =>
        rw [ofText?, splitSign_of_stops hu.stops]
        exact isSome_ofUnsigned?_of_rule false hu
    | signed sign hu =>
        cases sign with
        | plus => exact isSome_ofUnsigned?_of_rule false hu
        | minus => exact isSome_ofUnsigned?_of_rule true hu

end Exact

/-! ## The texts of numbers -/

namespace Number

variable {n : Number}

theorem text_of_not_isSpaced (hw : n.WellFormed) (hp : n.point.isSome = true)
    (hs : n.isSpaced = false) :
    n.text = n.sign.toList.map Sign.char ++ (n.whole ++ '.' :: n.places) := by
  have hself : withoutBlanks n.text = n.text := by
    refine List.filter_eq_self.2 ?_
    intro c hc
    have hblank := List.any_eq_false.1 hs c hc
    simpa using hblank
  rw [← hself, ← hw.text_compact, text_compact_eq hp]

/-- **The text of a compact real keeps to the rule.** -/
theorem rule_text (hw : n.WellFormed) (hp : n.point.isSome = true) (hs : n.isSpaced = false) :
    Exact.Rule n.text := by
  rw [text_of_not_isSpaced hw hp hs]
  refine Exact.rule_of_digits n.sign hw.whole hw.isRun_places ?_
  intro hwhole hplaces
  exact hw.whole_ne_nil hplaces hwhole

/-- **What a number with a point is packed into keeps to the rule**, and there is always room for
it. -/
theorem exists_packed?_eq (hw : n.WellFormed) (hp : n.point.isSome = true) :
    ∃ text, n.packed? = some text ∧ Exact.Rule text ∧ text.length ≤ packedCapacity := by
  have hhead := length_packedHead_le hw
  refine ⟨_, packed?_eq hw hp, ?_, ?_⟩
  · exact Exact.rule_of_digits n.sign (isRun_trimZeros hw.whole) (isRun_keptPlaces hw)
      (keptPlaces_ne_nil hw)
  · have hlength : n.keptPlaces.length ≤ packedCapacity - n.packedHead.length := by
      rw [keptPlaces, List.length_take]
      omega
    have htext : n.sign.toList.map Sign.char ++ (trimZeros n.whole ++ '.' :: n.keptPlaces) =
        n.packedHead ++ n.keptPlaces := by
      simp [packedHead, hp]
    rw [htext, List.length_append]
    rw [packedCapacity] at hlength ⊢
    omega

theorem exists_toExact?_eq (hw : n.WellFormed) (hp : n.point.isSome = true) :
    ∃ x, n.toExact? = some x := by
  rw [toExact?]
  cases hs : n.isSpaced with
  | false => exact Option.isSome_iff_exists.1 (Exact.isSome_ofText?_iff.2 (rule_text hw hp hs))
  | true =>
      obtain ⟨text, hpacked, hrule, -⟩ := exists_packed?_eq hw hp
      rw [if_pos rfl, hpacked]
      exact Option.isSome_iff_exists.1 (Exact.isSome_ofText?_iff.2 hrule)

end Number

/-! ## The values of fields -/

namespace Field

variable {settings : Settings} {line tail : List Char} {field : Field}

theorem floats_of_integer {n : Number} {scaled : Option Int32}
    (ha : field.argument = .number n scaled) (hp : n.point = none) :
    (∃ x, field.double = .ok x) ∧ ∃ x, field.single = .ok x := by
  have hexact (reading : Reading) :
      field.exactValue reading = .ok ⟨n.toInt < 0, n.toInt.toInt.natAbs, 0⟩ := by
    rw [exactValue, ha]
    simp [hp]
  rw [double, single, hexact, hexact]
  exact ⟨⟨_, rfl⟩, ⟨_, rfl⟩⟩

theorem point_of_kind {n : Number} {scaled : Option Int32} (ha : field.argument = .number n scaled) :
    (field.kind = .realCompact → n.point.isSome = true ∧ n.isSpaced = false) ∧
      (field.kind = .realSpaced → n.point.isSome = true ∧ n.isSpaced = true) := by
  rw [kind, ha, Argument.kind]
  cases hp : n.point <;> cases hs : n.isSpaced <;> simp

/-- **Every field with a number has a value in floating point.** The text behind the word of a
compact real is a number that floating point can be read from. So is what the bytes behind the word
of a spaced real leave in the buffer, however many zeros and places there are: the whole digits never
run out of room. -/
theorem floats_of_read? (h : read? settings line = some (field, tail))
    (hk : field.kind.isNumeric = true) :
    (∃ x, field.double = .ok x) ∧ (∃ x, field.single = .ok x) ∧
      (field.kind = .realCompact → Exact.Rule field.raw.tail) ∧
      (field.kind = .realSpaced → ∃ n scaled text, field.argument = .number n scaled ∧
        n.packed? = some text ∧
        Guarded.packed (toBytes field.raw.tail) = .ok (some (toBytes text)) ∧
        Exact.Rule text ∧ text.length ≤ 64) := by
  obtain ⟨rest, n, -, -, -, hr, ha⟩ := exists_number_of_read? h hk
  have hw : n.WellFormed := (Number.read?_eq_some_iff.1 hr).1
  have hraw : field.raw.tail = n.text := by rw [raw, ha, Argument.text, List.tail_cons]
  obtain ⟨hcompact, hspaced⟩ := point_of_kind ha
  have hfloats : (∃ x, field.double = .ok x) ∧ ∃ x, field.single = .ok x := by
    cases hp : n.point with
    | none => exact floats_of_integer ha hp
    | some point =>
        have hsome : n.point.isSome = true := by rw [hp]; rfl
        obtain ⟨x, hx⟩ := Number.exists_toExact?_eq hw hsome
        obtain ⟨hdouble, hsingle⟩ := floats_of_number ha hsome hx
        exact ⟨⟨_, hdouble⟩, ⟨_, hsingle⟩⟩
  refine ⟨hfloats.1, hfloats.2, ?_, ?_⟩
  · intro hkind
    obtain ⟨hp, hs⟩ := hcompact hkind
    rw [hraw]
    exact Number.rule_text hw hp hs
  · intro hkind
    obtain ⟨hp, -⟩ := hspaced hkind
    obtain ⟨text, hpacked, hrule, hlength⟩ := Number.exists_packed?_eq hw hp
    refine ⟨n, _, text, ha, hpacked, ?_, hrule, hlength⟩
    rw [hraw, Guarded.packed_text hw hp, hpacked]
    rfl

/-- A number with more zeros in front, and more places, than there is room for. -/
def crowded : Field :=
  ⟨'x', 'X', .number ⟨[' '], some .minus, ['\t'], List.replicate 70 '0' ++ "12".toList, 12,
    some ⟨[' '], [], List.replicate 70 '5'⟩⟩ (some (-1255))⟩

theorem floats_of_read?_crowded :
    read? { scale := 2 } (crowded.raw ++ " Y".toList) = some (crowded, " Y".toList) ∧
      crowded.kind.isNumeric = true ∧ crowded.kind = .realSpaced ∧
      (∃ x, crowded.double = .ok x) ∧ (∃ x, crowded.single = .ok x) ∧
      ∃ n scaled text, crowded.argument = .number n scaled ∧ n.packed? = some text ∧
        Guarded.packed (toBytes crowded.raw.tail) = .ok (some (toBytes text)) ∧
        Exact.Rule text ∧ text.length ≤ 64 := by
  have h : read? { scale := 2 } (crowded.raw ++ " Y".toList) = some (crowded, " Y".toList) := by
    decide +kernel
  have hkind : crowded.kind = .realSpaced := by decide +kernel
  have hnumeric : crowded.kind.isNumeric = true := by rw [hkind]; rfl
  obtain ⟨hdouble, hsingle, -, hspaced⟩ := floats_of_read? h hnumeric
  exact ⟨h, hnumeric, hkind, hdouble, hsingle, hspaced hkind⟩

end Field
end GCode
