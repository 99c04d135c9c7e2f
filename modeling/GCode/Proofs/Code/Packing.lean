import GCode.Code

/-!
# Packing and unpacking a code

The three parts of a code stand side by side in its word, so packing is a sum
(`Code.toNat_bits_pack`) and each part is found again by division (`Code.toNat_word`,
`Code.toNat_subcode`, `Code.toNat_number`).
-/

namespace GCode.Code

/-! ## Unpacking -/

theorem toNat_word (code : Code) : code.word.toNat = code.bits.toNat / 16777216 := by
  have hlt := code.bits.toNat_lt
  show (code.bits >>> 24).toUInt8.toNat = _
  rw [UInt32.toNat_toUInt8, UInt32.toNat_shiftRight, Nat.shiftRight_eq_div_pow]
  show code.bits.toNat / 2 ^ 24 % 2 ^ 8 = _
  omega

theorem toNat_subcode (code : Code) :
    code.subcode.toNat = code.bits.toNat / 65536 % 256 := by
  rw [subcode, UInt32.toNat_toUInt8, UInt32.toNat_shiftRight, Nat.shiftRight_eq_div_pow]
  rfl

theorem toNat_number (code : Code) : code.number.toNat = code.bits.toNat % 65536 := by
  rw [number, UInt32.toNat_toUInt16]

/-! ## Packing -/

variable {word : Char}

/-- **Packing puts the parts side by side**: no part reaches into the bits of another. -/
theorem toNat_bits_pack (hw : word.toNat < 128 ∧ word.toNat ≠ 0) (number : UInt16)
    (subcode : UInt8) :
    (pack word number subcode).bits.toNat =
      (word.toNat * 256 + subcode.toNat) * 65536 + number.toNat := by
  have hval : word.val.toNat = word.toNat := rfl
  have hlt : word.toNat < 128 := hw.1
  have hs : subcode.toNat < 2 ^ 8 := subcode.toNat_lt
  have hn : number.toNat < 2 ^ 16 := number.toNat_lt
  have hhigh : (word.val <<< 24).toNat = word.toNat <<< 24 := by
    rw [UInt32.toNat_shiftLeft, hval, Nat.shiftLeft_eq, Nat.shiftLeft_eq]
    exact Nat.mod_eq_of_lt (by simp; omega)
  have hmiddle : (subcode.toUInt32 <<< 16).toNat = subcode.toNat <<< 16 := by
    rw [UInt32.toNat_shiftLeft, UInt8.toNat_toUInt32, Nat.shiftLeft_eq, Nat.shiftLeft_eq]
    exact Nat.mod_eq_of_lt (by simp; omega)
  have hjoin : word.toNat <<< 24 ||| subcode.toNat <<< 16 =
      (word.toNat <<< 8 + subcode.toNat) <<< 16 := by
    rw [Nat.shiftLeft_add_eq_or_of_lt hs, Nat.shiftLeft_or_distrib, ← Nat.shiftLeft_add]
  rw [pack, if_pos hw]
  show (word.val <<< 24 ||| subcode.toUInt32 <<< 16 ||| number.toUInt32).toNat = _
  rw [UInt32.toNat_or, UInt32.toNat_or, hhigh, hmiddle, UInt16.toNat_toUInt32, hjoin,
    ← Nat.shiftLeft_add_eq_or_of_lt hn, Nat.shiftLeft_eq, Nat.shiftLeft_eq]

theorem word_pack (hw : word.toNat < 128 ∧ word.toNat ≠ 0) (number : UInt16) (subcode : UInt8) :
    (pack word number subcode).word = word := by
  have hb := toNat_bits_pack hw number subcode
  have hs : subcode.toNat < 2 ^ 8 := subcode.toNat_lt
  have hn : number.toNat < 2 ^ 16 := number.toNat_lt
  apply Char.toNat_inj.1
  rw [toNat_word, hb]
  omega

theorem number_pack (hw : word.toNat < 128 ∧ word.toNat ≠ 0) (number : UInt16)
    (subcode : UInt8) : (pack word number subcode).number = number := by
  have hb := toNat_bits_pack hw number subcode
  have hn : number.toNat < 2 ^ 16 := number.toNat_lt
  apply UInt16.toNat_inj.1
  rw [toNat_number, hb]
  omega

theorem subcode_pack (hw : word.toNat < 128 ∧ word.toNat ≠ 0) (number : UInt16)
    (subcode : UInt8) : (pack word number subcode).subcode = subcode := by
  have hb := toNat_bits_pack hw number subcode
  have hs : subcode.toNat < 2 ^ 8 := subcode.toNat_lt
  have hn : number.toNat < 2 ^ 16 := number.toNat_lt
  apply UInt8.toNat_inj.1
  rw [toNat_subcode, hb]
  omega

theorem isValid_pack_iff {number : UInt16} {subcode : UInt8} :
    (pack word number subcode).isValid = true ↔ word.toNat < 128 ∧ word.toNat ≠ 0 := by
  constructor
  · intro h
    by_cases hw : word.toNat < 128 ∧ word.toNat ≠ 0
    · exact hw
    · rw [pack, if_neg hw] at h
      exact absurd h (by decide)
  · intro hw
    have hb := toNat_bits_pack hw number subcode
    have h0 : (0 : UInt32).toNat = 0 := rfl
    rw [isValid, decide_eq_true_eq]
    intro he
    rw [he, h0] at hb
    omega

theorem text_pack (hw : word.toNat < 128 ∧ word.toNat ≠ 0) (number : UInt16) (subcode : UInt8) :
    (pack word number subcode).text =
      word :: Numeral.render number.toNat ++
        (if subcode = 0 then [] else '.' :: Numeral.render subcode.toNat) := by
  rw [text, if_pos (isValid_pack_iff.2 hw), word_pack hw, number_pack hw, subcode_pack hw]

end GCode.Code
