import GCode.Number.Reading
import GCode.Proofs.Number.Compacting

/-!
# The exact value of a number with a point

Floating point rounds an exact value. A number without blanks is taken digit by digit. One with
blanks is packed first: its superfluous zeros go, and so do the digits that find no room. Whole
digits always find room, because the limit on their value leaves ten of them at most
(`Number.length_trimZeros_le`), and so at least 52 digits after the point are kept.

* `Exact.ofText?_of_digits`: the value of a sign, digits, a point and digits.
* `Number.packed?_eq`: what a number is packed into.
* `Number.toExact?_compact`, `Number.toExact?_of_isSpaced`: the exact values of the two spellings.
* `Number.exact_keptPlaces_bounds`: how much the digits that find no room can make out.
-/

namespace GCode

open Text Numeral

/-! ## The value of digits around a point -/

namespace Exact

theorem splitSign_of_stops {text : List Char} (h : Stops Sign.isSign text) :
    splitSign text = (false, text) := by
  unfold splitSign
  split
  · exact absurd (stops_cons.1 h) (by decide)
  · exact absurd (stops_cons.1 h) (by decide)
  · rfl

theorem splitSign_append (sign : Option Sign) {text : List Char} (h : Stops Sign.isSign text) :
    splitSign (sign.toList.map Sign.char ++ text) = (decide (sign = some .minus), text) := by
  cases sign with
  | none => exact splitSign_of_stops h
  | some sign => cases sign <;> rfl

/-- **The value of a sign, digits, a point and digits**: all the digits in a row, divided by a
power of ten for those after the point. -/
theorem ofText?_of_digits (sign : Option Sign) {whole places : List Char}
    (hw : IsRun Char.isDigit whole) (hp : IsRun Char.isDigit places)
    (hne : whole = [] → places ≠ []) :
    ofText? (sign.toList.map Sign.char ++ (whole ++ '.' :: places)) =
      some ⟨decide (sign = some .minus), value (whole ++ places), places.length⟩ := by
  have hsign : Stops Sign.isSign (whole ++ '.' :: places) :=
    hw.stops_append isSign_eq_false_of_isDigit (stops_cons.2 (by decide))
  have hdot : Stops Char.isDigit ('.' :: places) := stops_cons.2 (by decide)
  have hall : (places.all Char.isDigit && !(whole ++ places).isEmpty) = true := by
    rw [Bool.and_eq_true, List.all_eq_true]
    exact ⟨hp, by simpa using hne⟩
  rw [ofText?, splitSign_append sign hsign]
  simp only [ofUnsigned?, takeDigits_append hw hdot, dropDigits_append hw hdot, hall, if_true]

theorem ofText?_of_run (sign : Option Sign) {whole : List Char} (hw : IsRun Char.isDigit whole)
    (hne : whole ≠ []) :
    ofText? (sign.toList.map Sign.char ++ whole) =
      some ⟨decide (sign = some .minus), value whole, 0⟩ := by
  have hsign : Stops Sign.isSign whole := by
    have happend := hw.stops_append isSign_eq_false_of_isDigit (stops_nil : Stops Sign.isSign [])
    rwa [List.append_nil] at happend
  have htake := takeDigits_append hw stops_nil
  have hdrop := dropDigits_append hw stops_nil
  rw [List.append_nil] at htake hdrop
  rw [ofText?, splitSign_append sign hsign]
  simp only [ofUnsigned?, htake, hdrop, if_neg hne]

end Exact

namespace Number

def exact (n : Number) (places : List Char) : Exact :=
  ⟨n.isNegative, value (n.whole ++ places), places.length⟩

/-- **Without blanks every digit counts.** -/
theorem toExact?_compact {n : Number} (hw : n.WellFormed) (hp : n.point.isSome) :
    n.compact.toExact? = some (n.exact n.places) := by
  have hvalue := Exact.ofText?_of_digits n.sign hw.whole hw.isRun_places fun hn hplaces =>
    hw.whole_ne_nil hplaces hn
  rw [toExact?, hw.isSpaced_compact, if_neg (by decide), text_compact_eq hp, hvalue]
  rfl

/-! ## Packing -/

/-- The digits after the point that are packed. -/
def keptPlaces (n : Number) : List Char := n.places.take (packedCapacity - n.packedHead.length)

def unkeptPlaces (n : Number) : List Char := n.places.drop (packedCapacity - n.packedHead.length)

theorem keptPlaces_append_unkeptPlaces (n : Number) :
    n.keptPlaces ++ n.unkeptPlaces = n.places :=
  List.take_append_drop _ _

theorem value_dropWhile_zero (digits : List Char) :
    value (digits.dropWhile (· = '0')) = value digits := by
  induction digits with
  | nil => rfl
  | cons digit digits ih =>
      by_cases hz : digit = '0'
      · rw [List.dropWhile_cons_of_pos (by simpa using hz), ih, value_cons, hz]
        simp [digitValue]
      · rw [List.dropWhile_cons_of_neg (by simpa using hz)]

theorem trimZeros_cases (digits : List Char) :
    (digits.dropWhile (· = '0') = [] ∧ trimZeros digits = digits.take 1) ∨
      ∃ digit rest, digit ≠ '0' ∧ trimZeros digits = digit :: rest ∧
        digits.dropWhile (· = '0') = digit :: rest := by
  unfold trimZeros
  cases hd : digits.dropWhile (· = '0') with
  | nil => exact .inl ⟨rfl, rfl⟩
  | cons digit rest =>
      have hs : Stops (· = '0') (digit :: rest) := hd ▸ Stops.dropWhile digits
      have hz : digit ≠ '0' := by simpa using stops_cons.1 hs
      exact .inr ⟨digit, rest, hz, rfl, rfl⟩

theorem value_trimZeros (digits : List Char) : value (trimZeros digits) = value digits := by
  rcases trimZeros_cases digits with ⟨hd, ht⟩ | ⟨digit, rest, -, ht, hd⟩
  · cases digits with
    | nil => rfl
    | cons digit digits =>
        have hz : digit = '0' := by
          by_contra hz
          rw [List.dropWhile_cons_of_neg (by simpa using hz)] at hd
          cases hd
        have hvalue := value_dropWhile_zero (digit :: digits)
        rw [ht, ← hvalue, hd, hz]
        rfl
  · rw [ht, ← hd, value_dropWhile_zero]

theorem isRun_trimZeros {digits : List Char} (h : IsRun Char.isDigit digits) :
    IsRun Char.isDigit (trimZeros digits) := by
  rcases trimZeros_cases digits with ⟨-, ht⟩ | ⟨digit, rest, -, ht, hd⟩
  · rw [ht]
    exact fun c hc => h c (List.mem_of_mem_take hc)
  · rw [ht, ← hd]
    exact fun c hc => h c (List.dropWhile_sublist _ |>.subset hc)

theorem trimZeros_ne_nil {digits : List Char} (h : digits ≠ []) : trimZeros digits ≠ [] := by
  rcases trimZeros_cases digits with ⟨-, ht⟩ | ⟨digit, rest, -, ht, -⟩
  · simpa [ht] using h
  · simp [ht]

/-- **The limit on a value leaves ten digits at most.** -/
theorem length_trimZeros_le {digits : List Char} (h : IsRun Char.isDigit digits)
    (hl : value digits ≤ limit.toNat) : (trimZeros digits).length ≤ 10 := by
  rcases trimZeros_cases digits with ⟨-, ht⟩ | ⟨digit, rest, hz, ht, -⟩
  · rw [ht, List.length_take]
    omega
  · have hrun := isRun_trimZeros h
    have hvalue := value_trimZeros digits
    rw [ht] at hrun hvalue ⊢
    have hpow : 10 ^ rest.length ≤ value (digit :: rest) :=
      pow_length_le_value (isRun_cons.1 hrun).1 hz
    have hlimit := toNat_limit
    by_contra hlong
    rw [List.length_cons] at hlong
    have hten : 10 ^ 10 ≤ 10 ^ rest.length := Nat.pow_le_pow_right (by decide) (by omega)
    omega

theorem length_packedHead_le {n : Number} (hw : n.WellFormed) : n.packedHead.length ≤ 12 := by
  have hwhole := length_trimZeros_le hw.whole hw.value_le
  have hsign : (n.sign.toList.map Sign.char).length ≤ 1 := by
    cases n.sign <;> simp
  have hdot : (if n.point.isSome then ['.'] else []).length ≤ 1 := by
    split <;> simp
  simp only [packedHead, List.length_append]
  omega

/-- Up to 52 digits after the point are all kept. -/
theorem unkeptPlaces_eq_nil {n : Number} (hw : n.WellFormed) (h : n.places.length ≤ 52) :
    n.unkeptPlaces = [] := by
  have hhead := length_packedHead_le hw
  refine List.drop_eq_nil_of_le ?_
  rw [packedCapacity]
  omega

theorem value_places (n : Number) :
    value (n.whole ++ n.places) =
      value (n.whole ++ n.keptPlaces) * 10 ^ n.unkeptPlaces.length + value n.unkeptPlaces := by
  rw [← n.keptPlaces_append_unkeptPlaces, ← List.append_assoc, value_append]

/-- **What is left out is less than one unit in the last place that is kept.** -/
theorem exact_keptPlaces_bounds {n : Number} (hw : n.WellFormed) :
    (n.exact n.keptPlaces).digits * 10 ^ n.unkeptPlaces.length ≤ (n.exact n.places).digits ∧
      (n.exact n.places).digits <
        ((n.exact n.keptPlaces).digits + 1) * 10 ^ n.unkeptPlaces.length := by
  have hunkept : IsRun Char.isDigit n.unkeptPlaces :=
    fun c hc => hw.isRun_places c (List.mem_of_mem_drop hc)
  have hlt := value_lt_pow_length hunkept
  have hvalue := n.value_places
  simp only [exact, Nat.add_mul, Nat.one_mul]
  omega

theorem exact_places_eq {n : Number} (hz : IsRun (· = '0') n.unkeptPlaces) :
    n.exact n.places = ⟨n.isNegative,
      value (n.whole ++ n.keptPlaces) * 10 ^ n.unkeptPlaces.length,
      n.keptPlaces.length + n.unkeptPlaces.length⟩ := by
  have hzeros : n.unkeptPlaces = List.replicate n.unkeptPlaces.length '0' :=
    List.eq_replicate_of_mem fun c hc => by simpa using hz c hc
  have hnone : value n.unkeptPlaces = 0 := by
    rw [hzeros, value, Nat.ofDigitChars_replicate_zero, Nat.mul_zero]
  have hlength := congrArg List.length n.keptPlaces_append_unkeptPlaces
  rw [List.length_append] at hlength
  rw [exact, n.value_places, hnone, Nat.add_zero, hlength]

/-- **A number with a point is always packed**: its sign, its digits without superfluous zeros, its
point and the digits that find room. -/
theorem packed?_eq {n : Number} (hw : n.WellFormed) (hp : n.point.isSome) :
    n.packed? =
      some (n.sign.toList.map Sign.char ++ (trimZeros n.whole ++ '.' :: n.keptPlaces)) := by
  have hhead := length_packedHead_le hw
  have hfits : n.packedHead.length ≤ packedCapacity := by
    rw [packedCapacity]
    omega
  rw [packed?, if_pos hfits, keptPlaces]
  simp [packedHead, hp]

theorem isRun_keptPlaces {n : Number} (hw : n.WellFormed) : IsRun Char.isDigit n.keptPlaces :=
  fun c hc => hw.isRun_places c (List.mem_of_mem_take hc)

theorem keptPlaces_ne_nil {n : Number} (hw : n.WellFormed) (htrim : trimZeros n.whole = []) :
    n.keptPlaces ≠ [] := by
  intro hnil
  have hwhole : n.whole = [] := by_contra fun hn => trimZeros_ne_nil hn htrim
  have hhead := length_packedHead_le hw
  have hplaces : n.places = [] := by
    have hnil' := List.take_eq_nil_iff.1 hnil
    rw [packedCapacity] at hnil'
    exact hnil'.resolve_left (by omega)
  exact hw.whole_ne_nil hplaces hwhole

/-- **With blanks the digits that are kept count.** -/
theorem toExact?_of_isSpaced {n : Number} (hw : n.WellFormed) (hp : n.point.isSome)
    (hs : n.isSpaced = true) : n.toExact? = some (n.exact n.keptPlaces) := by
  have hvalue : value (trimZeros n.whole ++ n.keptPlaces) = value (n.whole ++ n.keptPlaces) := by
    rw [value_append, value_trimZeros, value_append]
  have htext := Exact.ofText?_of_digits n.sign (isRun_trimZeros hw.whole) (isRun_keptPlaces hw)
    (keptPlaces_ne_nil hw)
  rw [toExact?, if_pos hs, packed?_eq hw hp, Option.bind_some, htext, hvalue]
  rfl

end Number
end GCode
