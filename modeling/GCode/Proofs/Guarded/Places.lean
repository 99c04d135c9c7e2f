import GCode.Proofs.Guarded.Digits

/-!
# Digits put into places in one pass

`scanFraction` looks for the position after the digits on its own. One pass over the bytes finds it
on the way: `fill` moves the position on with every digit that it puts into a place, the places that
remain are padded, and only the digits that found no place are passed over, from where `fill` has
left the position. Since `fill` gives up at the first value past the limit, the value decides where
that is. It does not decide where the pass ends.

* `from_of_fill`: `fill` stops among the digits, as many positions further as places are taken.
* `scanFraction_eq_scanOnce`: the pass comes to the same end as `scanFraction`, whatever the bytes
  are, and goes wrong if that does.
* `scanOnce_of_digits`: it never goes wrong, ends after the last digit, and gives the value in
  fixed point, refused exactly if it is past the limit.
-/

namespace GCode.Guarded

open Text Numeral

def digitAt (bytes : List UInt8) (index : Nat) : Option UInt8 :=
  bytes[index]?.filter (hasCode Char.isDigit)

/-- What digits that are put into places leave behind. -/
structure Filled where
  /-- The position after the last digit that has been taken. -/
  index : Nat
  word : UInt64
  /-- The places that no digit has been taken for. -/
  remaining : Nat
  /-- Whether the word has gone past the limit. -/
  isPast : Bool
  deriving DecidableEq, Repr

/-- Takes a digit for each of the places that remain, up to the first value past the limit. -/
def fill (line : List UInt8) :
    (remaining index : Nat) → (word : UInt64) → Except Fault Filled
  | 0, index, word => pure ⟨index, word, 0, false⟩
  | remaining + 1, index, word =>
      match digitAt line index with
      | none => pure ⟨index, word, remaining + 1, false⟩
      | some byte => do
          let next ← push word byte
          if limit < next then pure ⟨index + 1, next, remaining, true⟩
          else fill line remaining (index + 1) next

namespace Filled

/-- The word with the places that remain padded, if a digit has been taken since the start. There is
none past the limit. -/
def padded? (filled : Filled) (start : Nat) : Except Fault (Option UInt64) :=
  if filled.isPast then pure none
  else if filled.index = start then pure (some filled.word)
  else pad filled.remaining filled.word

/-- The word within the limit and the places that remain. -/
def kept? (filled : Filled) : Option (UInt64 × Nat) :=
  if filled.isPast then none else some (filled.word, filled.remaining)

/-- Digits have been put into places from a position on: the digits end where they ended before, and
each of them has taken one of the places. -/
structure From (line : List UInt8) (index places : Nat) (filled : Filled) : Prop where
  skip_eq : skip Char.isDigit line filled.index = skip Char.isDigit line index
  index_add_remaining : filled.index + filled.remaining = index + places

end Filled

/-- Puts the digits at a position into places, pads the places that remain and passes over the
digits that remain. -/
def scanOnce (line : List UInt8) (index places : Nat) (whole : UInt32) :
    Except Fault (Scanned × Nat) := do
  let filled ← fill line places index whole.toUInt64
  let padded ← filled.padded? index
  let stop := skip Char.isDigit line filled.index
  pure (if stop = index then .missing else Scanned.ofWord? padded, stop)

variable {line : List UInt8} {byte : UInt8} {index places : Nat} {word : UInt64} {filled : Filled}
  {digits : List Char}

/-! ## One digit -/

theorem drop_of_digitAt (h : digitAt line index = some byte) :
    line.drop index = byte :: line.drop (index + 1) ∧ hasCode Char.isDigit byte = true := by
  obtain ⟨hbyte, hdigit⟩ := Option.filter_eq_some_iff.1 h
  obtain ⟨hlt, rfl⟩ := List.getElem?_eq_some_iff.1 hbyte
  exact ⟨List.drop_eq_getElem_cons hlt, hdigit⟩

theorem fill_of_digitAt_eq_none (h : digitAt line index = none) (remaining : Nat) :
    fill line (remaining + 1) index word = .ok ⟨index, word, remaining + 1, false⟩ := by
  rw [fill, h]
  rfl

theorem fill_of_digitAt (h : digitAt line index = some byte) (remaining : Nat) :
    fill line (remaining + 1) index word = push word byte >>= fun next =>
      if limit < next then .ok ⟨index + 1, next, remaining, true⟩
      else fill line remaining (index + 1) next := by
  rw [fill, h]
  rfl

theorem fold_of_digitAt_eq_none (h : digitAt line index = none) (remaining : Nat) :
    fold (remaining + 1) word (line.drop index) = .ok (some (word, remaining + 1)) := by
  cases hrest : line.drop index with
  | nil => rfl
  | cons byte bytes =>
      rw [digitAt, ← List.head?_drop, hrest, List.head?_cons] at h
      have hdigit : ¬hasCode Char.isDigit byte = true := Option.filter_eq_none_iff.1 h byte rfl
      rw [fold, if_neg hdigit, pure_eq_ok]

theorem fold_of_digitAt (h : digitAt line index = some byte) (remaining : Nat) :
    fold (remaining + 1) word (line.drop index) = push word byte >>= fun next =>
      if limit < next then .ok none else fold remaining next (line.drop (index + 1)) := by
  obtain ⟨hdrop, hdigit⟩ := drop_of_digitAt h
  rw [hdrop, fold, if_pos hdigit]
  rfl

theorem skip_of_digitAt (h : digitAt line index = some byte) :
    skip Char.isDigit line (index + 1) = skip Char.isDigit line index := by
  obtain ⟨hdrop, hdigit⟩ := drop_of_digitAt h
  rw [skip_isDigit, skip_isDigit, hdrop, leadingDigits_cons_of_pos hdigit, List.length_cons]
  omega

theorem Filled.From.step (h : digitAt line index = some byte)
    (hf : filled.From line (index + 1) places) : filled.From line index (places + 1) where
  skip_eq := hf.skip_eq.trans (skip_of_digitAt h)
  index_add_remaining := by
    rw [hf.index_add_remaining]
    omega

/-! ## All digits -/

/-- **Wherever the places are used up, the digits end where they did.** -/
theorem from_of_fill (h : fill line places index word = .ok filled) :
    filled.From line index places := by
  induction places generalizing index word with
  | zero =>
      cases h
      exact ⟨rfl, rfl⟩
  | succ places ih =>
      cases hbyte : digitAt line index with
      | none =>
          rw [fill_of_digitAt_eq_none hbyte] at h
          cases h
          exact ⟨rfl, rfl⟩
      | some byte =>
          rw [fill_of_digitAt hbyte] at h
          refine Filled.From.step hbyte ?_
          cases hpush : push word byte with
          | error fault =>
              rw [hpush] at h
              cases h
          | ok next =>
              rw [hpush, ok_bind] at h
              split at h
              · cases h
                exact ⟨rfl, rfl⟩
              · exact ih h

/-- Digits are put into the same places with a position and without one. -/
theorem fold_eq_map_fill (line : List UInt8) (places index : Nat) (word : UInt64) :
    fold places word (line.drop index) = (fill line places index word).map Filled.kept? := by
  induction places generalizing index word with
  | zero =>
      rw [fold]
      rfl
  | succ places ih =>
      cases hbyte : digitAt line index with
      | none =>
          rw [fold_of_digitAt_eq_none hbyte, fill_of_digitAt_eq_none hbyte]
          rfl
      | some byte =>
          rw [fold_of_digitAt hbyte, fill_of_digitAt hbyte]
          cases push word byte with
          | error fault => rfl
          | ok next =>
              rw [ok_bind, ok_bind]
              split
              · rfl
              · exact ih (index + 1) next

/-- **One pass comes to the same end.** No digit has been taken exactly if all places remain. -/
theorem scanFraction_eq_scanOnce (line : List UInt8) (index places : Nat) (whole : UInt32) :
    scanFraction line index places whole = scanOnce line index places whole := by
  rw [scanFraction, scanOnce, fold_eq_map_fill]
  cases hfill : fill line places index whole.toUInt64 with
  | error fault => rfl
  | ok filled =>
      obtain ⟨hskip, hadd⟩ := from_of_fill hfill
      have hpadded : padFolded places filled.kept? = filled.padded? index := by
        rw [Filled.kept?, Filled.padded?]
        cases filled.isPast with
        | true => rfl
        | false =>
            have hiff : filled.remaining = places ↔ filled.index = index := by omega
            simp only [Bool.false_eq_true, if_false, padFolded, hiff]
      simp only [Except.map, ok_bind, hpadded, hskip]

/-! ## The value in the places -/

theorem Scanned.ofWord?_ne_missing (found : Option UInt64) : ofWord? found ≠ .missing := by
  cases found <;> rintro ⟨⟩

theorem toUInt64_le_limit {whole : UInt32} (hw : whole.toNat ≤ 2147483647) :
    whole.toUInt64 ≤ limit := by
  rwa [UInt64.le_iff_toNat_le, UInt32.toNat_toUInt64]

section
variable {whole : UInt32} (hd : IsRun Char.isDigit digits) (hw : whole.toNat ≤ 2147483647)
include hd hw

theorem ofWord?_fixed?_eq_value_iff (places : Nat) (result : UInt32) :
    Scanned.ofWord? (fixed? places whole.toUInt64 digits) = .value result ↔
      result.toNat = fixedPoint places whole.toNat digits ∧
        fixedPoint places whole.toNat digits ≤ 2147483647 := by
  have hle := toUInt64_le_limit hw
  rw [← UInt32.toNat_toUInt64 whole, ← toNat_limit]
  cases hf : fixed? places whole.toUInt64 digits with
  | none =>
      have hlt := (fixed?_eq_none_iff hd hle places).1 hf
      exact iff_of_false (fun h => by cases h) fun h => absurd h.2 (Nat.not_le.2 hlt)
  | some found =>
      obtain ⟨hfound, hvalue⟩ := (fixed?_eq_some_iff hd hle places).1 hf
      -- the value is within the limit, so the narrow word holds it as well
      have hnarrow : found.toUInt32.toNat = found.toNat := by
        rw [UInt64.toNat_toUInt32, hfound]
        exact Nat.mod_eq_of_lt (hvalue.trans_lt (by decide))
      rw [Scanned.ofWord?, Scanned.value.injEq, ← UInt32.toNat_inj, hnarrow, hfound,
        and_iff_left hvalue]
      exact eq_comm

theorem ofWord?_fixed?_eq_overflow_iff (places : Nat) :
    Scanned.ofWord? (fixed? places whole.toUInt64 digits) = .overflow ↔
      2147483647 < fixedPoint places whole.toNat digits := by
  rw [← UInt32.toNat_toUInt64 whole, ← toNat_limit,
    ← fixed?_eq_none_iff hd (toUInt64_le_limit hw) places]
  cases fixed? places whole.toUInt64 digits with
  | none => exact iff_of_true rfl rfl
  | some found => exact iff_of_false (fun h => by cases h) fun h => by cases h

end

/-- **Digits after a point, at any position of any bytes.** Whatever the number of places, the pass
goes wrong nowhere, and it ends after the last digit, whether the value is within the limit, goes
past it with a digit or does so with a zero at the end. Without a digit the position stays where it
is and nothing is found. With digits the value is the one in fixed point: it is found exactly if it
is within the limit, and refused exactly if it is past the limit. Between two characters, these are
the digits that the text goes on with, and what is found is what they are read as. -/
theorem scanOnce_of_digits (line : List UInt8) (index places : Nat) {whole : UInt32}
    (hw : whole.toNat ≤ 2147483647) (hd : leadingDigits (line.drop index) = digits) :
    ∃ scanned, scanOnce line index places whole = .ok (scanned, index + digits.length) ∧
      scanFraction line index places whole = scanOnce line index places whole ∧
      (scanned = .missing ↔ digits = []) ∧
      (digits ≠ [] →
        (∀ result, scanned = .value result ↔
          result.toNat = fixedPoint places whole.toNat digits ∧
            fixedPoint places whole.toNat digits ≤ 2147483647) ∧
        (scanned = .overflow ↔ 2147483647 < fixedPoint places whole.toNat digits) ∧
        scanned = Scanned.ofWord? (fixed? places whole.toUInt64 digits)) ∧
      ∀ before rest, Stands line index before rest →
        digits = takeDigits rest ∧
          Stands line (index + digits.length) (before ++ digits) (dropDigits rest) := by
  have hrun : IsRun Char.isDigit digits := hd ▸ isRun_leadingDigits _
  have hsame := scanFraction_eq_scanOnce line index places whole
  have hscan := scanFraction_leadingDigits (toUInt64_le_limit hw) line index places
  rw [hsame, skip_isDigit, hd] at hscan
  refine ⟨_, hscan, hsame, ?_, ?_, ?_⟩
  · by_cases hnil : digits = []
    · rw [if_pos hnil]
      exact iff_of_true rfl hnil
    · rw [if_neg hnil]
      exact iff_of_false (Scanned.ofWord?_ne_missing _) hnil
  · intro hne
    rw [if_neg hne]
    exact ⟨ofWord?_fixed?_eq_value_iff hrun hw places,
      ofWord?_fixed?_eq_overflow_iff hrun hw places, rfl⟩
  · intro before rest h
    obtain rfl : digits = takeDigits rest := hd ▸ h.leadingDigits_eq
    have hstop := h.skip isAscii_isDigit
    rw [h.skip_eq isAscii_isDigit] at hstop
    exact ⟨rfl, hstop⟩

/-- A small number, with more behind it than its digits. -/
def slight : List UInt8 := toBytes "X .\t0009\u00e9".toList

theorem scanOnce_of_digits_padded :
    (0 : UInt32).toNat ≤ 2147483647 ∧ leadingDigits (slight.drop 4) = "0009".toList ∧
      ∃ scanned, scanOnce slight 4 255 0 = .ok (scanned, 4 + "0009".toList.length) ∧
        scanFraction slight 4 255 0 = scanOnce slight 4 255 0 ∧
        (scanned = .missing ↔ "0009".toList = []) ∧
        ("0009".toList ≠ [] →
          (∀ result, scanned = .value result ↔
            result.toNat = fixedPoint 255 0 "0009".toList ∧
              fixedPoint 255 0 "0009".toList ≤ 2147483647) ∧
          (scanned = .overflow ↔ 2147483647 < fixedPoint 255 0 "0009".toList) ∧
          scanned = Scanned.ofWord? (fixed? 255 0 "0009".toList)) ∧
        ∀ before rest, Stands slight 4 before rest →
          "0009".toList = takeDigits rest ∧
            Stands slight (4 + "0009".toList.length) (before ++ "0009".toList)
              (dropDigits rest) :=
  ⟨by decide, by decide, scanOnce_of_digits slight 4 255 (by decide : (0 : UInt32).toNat ≤ _)
    (by decide : leadingDigits (slight.drop 4) = "0009".toList)⟩

-- the first digit goes past the limit, and the others are passed over
example : scanOnce (toBytes "21475.1999".toList) 6 5 21475 = .ok (.overflow, 10) := by decide

-- inside a character
example : scanOnce (toBytes "\u00e99".toList) 1 3 7 = .ok (.missing, 1) := by decide

end GCode.Guarded
