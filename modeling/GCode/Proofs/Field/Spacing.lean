import GCode.Field.Reading
import GCode.Proofs.Binary.Quotient
import GCode.Proofs.Field.Cases
import GCode.Proofs.Number.Packing

/-!
# Blanks in a number and its floating point value

A number with a point can be written with blanks or without, and floating point reads the two
spellings in different ways: without blanks all digits count, with blanks those that are packed.
The readings agree as long as nothing but zeros is left out. They do not agree for all numbers,
because there is room for a limited number of zeros after the point.

* `Field.exists_read?_withoutBlanks`: without its blanks the text of a field with a number is a field with
  the same number.
* `Number.toDouble_keptPlaces`, `Number.toSingle_keptPlaces`: zeros that find no room do not count.
* `Field.spaced_reals`: what the two spellings of a number are in floating point.
* `Field.not_forall_spaced_eq_compact`: two spellings that are not the same number.
-/

namespace GCode

open Text Numeral

namespace Number

/-- **Zeros that find no room do not count.** -/
theorem toDouble_keptPlaces {n : Number} (hz : IsRun (· = '0') n.unkeptPlaces) :
    (n.exact n.keptPlaces).toDouble = (n.exact n.places).toDouble := by
  rw [exact_places_eq hz, Exact.toDouble_pad]
  rfl

theorem toSingle_keptPlaces {n : Number} (hz : IsRun (· = '0') n.unkeptPlaces) :
    (n.exact n.keptPlaces).toSingle = (n.exact n.places).toSingle := by
  rw [exact_places_eq hz, Exact.toSingle_pad]
  rfl

end Number

namespace Field

variable {settings : Settings} {line tail : List Char} {field : Field}

/-! ## Reals -/

theorem exists_number_of_realSpaced (h : read? settings line = some (field, tail))
    (hk : field.kind = .realSpaced) :
    ∃ n : Number, n.WellFormed ∧ isWord field.letter = true ∧
      field.argument = .number n (n.scaled? settings) ∧ n.point.isSome = true ∧
      n.isSpaced = true := by
  obtain ⟨rest, n, -, hl, -, hr, ha⟩ := exists_number_of_read? h (by rw [hk]; rfl)
  rw [kind, ha, Argument.kind] at hk
  split at hk
  next => cases hk
  next hp =>
    split at hk
    next hs =>
      have hpoint : n.point.isSome = true := Option.isSome_iff_ne_none.2 (by simpa using hp)
      exact ⟨n, (Number.read?_eq_some_iff.1 hr).1, hl, ha, hpoint, hs⟩
    next => cases hk

/-- **Without its blanks the text of a field with a number is again a field**, all of it, with the
number without its blanks. -/
theorem exists_read?_withoutBlanks {letter : Char} {n : Number} (settings : Settings)
    (hl : isWord letter = true) (hw : n.WellFormed) :
    ∃ compact : Field, read? settings (withoutBlanks (letter :: n.text)) = some (compact, []) ∧
      compact.argument = .number n.compact (n.compact.scaled? settings) := by
  have hr := Number.read?_text_append hw.compact n.compact.ends_nil
  rw [List.append_nil] at hr
  rw [withoutBlanks_cons (isBlank_eq_false_of_isWord hl), ← hw.text_compact]
  exact ⟨_, read?_cons_of_number hl hr, rfl⟩

theorem floats_of_number {n : Number} {scaled : Option Int32} {x : Exact}
    (ha : field.argument = .number n scaled) (hp : n.point.isSome = true)
    (hx : n.toExact? = some x) :
    field.double = .ok x.toDouble ∧ field.single = .ok x.toSingle := by
  have hexact (reading : Reading) : field.exactValue reading = .ok x := by
    rw [exactValue, ha]
    simp [hx, Option.isNone_eq_false_iff.2 hp]
  rw [double, single, hexact, hexact]
  exact ⟨rfl, rfl⟩

theorem kind_of_number {n : Number} {scaled : Option Int32}
    (ha : field.argument = .number n scaled) (hp : n.point.isSome = true)
    (hs : n.isSpaced = false) : field.kind = .realCompact := by
  rw [kind, ha, Argument.kind]
  simp [hs, Option.isNone_eq_false_iff.2 hp]

/-- **What the two spellings of a number are in floating point.** The text of a spaced real, less
its blanks, is a compact real. The compact one rounds all its digits, the spaced one those that are
kept, at least 52 after the point, which is less by a part of a unit in the last of them. Both are
the same if zeros only are left out. -/
theorem spaced_reals (h : read? settings line = some (field, tail)) (hk : field.kind = .realSpaced) :
    ∃ (n : Number) (compact : Field), n.WellFormed ∧ field.raw = field.letter :: n.text ∧
      read? settings (withoutBlanks field.raw) = some (compact, []) ∧
      compact.kind = .realCompact ∧
      field.double = .ok (n.exact n.keptPlaces).toDouble ∧
      field.single = .ok (n.exact n.keptPlaces).toSingle ∧
      compact.double = .ok (n.exact n.places).toDouble ∧
      compact.single = .ok (n.exact n.places).toSingle ∧
      (n.exact n.keptPlaces).digits * 10 ^ n.unkeptPlaces.length ≤ (n.exact n.places).digits ∧
      (n.exact n.places).digits <
        ((n.exact n.keptPlaces).digits + 1) * 10 ^ n.unkeptPlaces.length ∧
      (n.places.length ≤ 52 → n.unkeptPlaces = []) ∧
      (IsRun (· = '0') n.unkeptPlaces →
        field.double = compact.double ∧ field.single = compact.single) := by
  obtain ⟨n, hw, hl, ha, hp, hs⟩ := exists_number_of_realSpaced h hk
  have hraw : field.raw = field.letter :: n.text := by rw [raw, ha, Argument.text]
  have hpoint : n.compact.point.isSome = true := by
    rw [Number.isSome_point_compact, hp]
  obtain ⟨compact, hread, hargument⟩ := exists_read?_withoutBlanks settings hl hw
  rw [← hraw] at hread
  have hkind : compact.kind = .realCompact :=
    kind_of_number hargument hpoint hw.isSpaced_compact
  obtain ⟨hdouble, hsingle⟩ := floats_of_number ha hp (Number.toExact?_of_isSpaced hw hp hs)
  obtain ⟨hdouble', hsingle'⟩ := floats_of_number hargument hpoint (Number.toExact?_compact hw hp)
  obtain ⟨hle, hlt⟩ := Number.exact_keptPlaces_bounds hw
  refine ⟨n, compact, hw, hraw, hread, hkind, hdouble, hsingle, hdouble', hsingle', hle, hlt,
    Number.unkeptPlaces_eq_nil hw, ?_⟩
  intro hz
  rw [hdouble, hsingle, Number.toDouble_keptPlaces hz, Number.toSingle_keptPlaces hz]
  exact ⟨hdouble'.symm, hsingle'.symm⟩

/-- A number with superfluous zeros and with blanks around its point. -/
def padded : Field :=
  ⟨'x', 'X', .number ⟨[' '], some .minus, [' '], "007".toList, 7,
    some ⟨[' '], ['\t'], "250".toList⟩⟩ (some (-725))⟩

theorem spaced_reals_padded :
    read? { scale := 2 } "x - 007 .\t250Y".toList = some (padded, ['Y']) ∧
      padded.kind = .realSpaced ∧
      ∃ (n : Number) (compact : Field), n.WellFormed ∧ padded.raw = padded.letter :: n.text ∧
        read? { scale := 2 } (withoutBlanks padded.raw) = some (compact, []) ∧
        compact.kind = .realCompact ∧
        padded.double = .ok (n.exact n.keptPlaces).toDouble ∧
        padded.single = .ok (n.exact n.keptPlaces).toSingle ∧
        compact.double = .ok (n.exact n.places).toDouble ∧
        compact.single = .ok (n.exact n.places).toSingle ∧
        (n.exact n.keptPlaces).digits * 10 ^ n.unkeptPlaces.length ≤ (n.exact n.places).digits ∧
        (n.exact n.places).digits <
          ((n.exact n.keptPlaces).digits + 1) * 10 ^ n.unkeptPlaces.length ∧
        (n.places.length ≤ 52 → n.unkeptPlaces = []) ∧
        (IsRun (· = '0') n.unkeptPlaces →
          padded.double = compact.double ∧ padded.single = compact.single) :=
  ⟨by decide, by decide, spaced_reals
    (by decide : read? { scale := 2 } "x - 007 .\t250Y".toList = some (padded, ['Y'])) (by decide)⟩

/-- A one behind as many zeros as there is room for. -/
def faint : Number :=
  ⟨[' '], none, [], ['0'], 0, some ⟨[], [], List.replicate 62 '0' ++ ['1']⟩⟩

/-- **Blanks can make a difference**: with a blank `0.00…01` is zero, without it is not. -/
theorem not_forall_spaced_eq_compact :
    ¬∀ (settings : Settings) (line tail : List Char) (field : Field),
      read? settings line = some (field, tail) → field.kind = .realSpaced →
      ∃ compact : Field, read? settings (withoutBlanks field.raw) = some (compact, []) ∧
        compact.kind = .realCompact ∧ field.double = compact.double ∧
        field.single = compact.single := by
  intro h
  have hspaced : read? {} ('X' :: faint.text) = some (⟨'X', 'X', .number faint (some 0)⟩, []) := by
    decide +kernel
  have hcompact : read? {} (withoutBlanks ('X' :: faint.text)) =
      some (⟨'X', 'X', .number faint.compact (some 0)⟩, []) := by
    decide +kernel
  obtain ⟨compact, hread, -, hdouble, -⟩ := h {} _ _ _ hspaced (by decide +kernel)
  have hfield : compact = ⟨'X', 'X', .number faint.compact (some 0)⟩ := by
    have heq := hread.symm.trans hcompact
    cases heq
    rfl
  rw [hfield] at hdouble
  have hzero : double ⟨'X', 'X', .number faint (some 0)⟩ = .ok ⟨0⟩ := by decide +kernel
  have hnonzero : double ⟨'X', 'X', .number faint.compact (some 0)⟩ =
      .ok ⟨0x32da53fc9631d10d⟩ := by
    decide +kernel
  rw [hzero, hnonzero] at hdouble
  exact absurd hdouble (by decide)

end Field
end GCode
