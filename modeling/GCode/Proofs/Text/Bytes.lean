import GCode.Text.Bytes

/-!
# Texts and their bytes

A text and its UTF-8 form determine each other: bytes are read as a text exactly if they are the
UTF-8 form of one (`ofBytes?_eq_some_iff`), and then as that text. An ASCII code in the form is the
character with that code, for all other characters have larger bytes only
(`mem_utf8EncodeChar_iff`).
-/

namespace GCode.Text

/-! ## Reading bytes -/

theorem toByteArray_toBytes (text : List Char) : (toBytes text).toByteArray = text.utf8Encode :=
  rfl

theorem toByteArray_inj {bytes bytes' : List UInt8}
    (h : bytes.toByteArray = bytes'.toByteArray) : bytes = bytes' := by
  rw [← List.toList_data_toByteArray (l := bytes), h, List.toList_data_toByteArray]

theorem ofBytes?_toBytes (text : List Char) : ofBytes? (toBytes text) = some text := by
  rw [ofBytes?, toByteArray_toBytes, List.utf8Decode?_utf8Encode]
  rfl

/-- **Bytes are read as a text exactly if they are its UTF-8 form.** -/
theorem ofBytes?_eq_some_iff {bytes : List UInt8} {text : List Char} :
    ofBytes? bytes = some text ↔ toBytes text = bytes := by
  constructor
  · intro h
    obtain ⟨chars, hc, rfl⟩ := Option.map_eq_some_iff.1 h
    have hsome : bytes.toByteArray.utf8Decode?.isSome = true := by rw [hc]; rfl
    obtain ⟨text, ht⟩ := ByteArray.isSome_utf8Decode?_iff.1 hsome
    rw [ht, List.utf8Decode?_utf8Encode] at hc
    cases hc
    exact toByteArray_inj ht.symm
  · rintro rfl
    exact ofBytes?_toBytes text

theorem ofBytes?_eq_none_iff {bytes : List UInt8} :
    ofBytes? bytes = none ↔ ∀ text, toBytes text ≠ bytes := by
  rw [Option.eq_none_iff_forall_ne_some]
  exact forall_congr' fun text => not_congr ofBytes?_eq_some_iff

/-! ## The bytes of a character -/

theorem toBytes_cons (c : Char) (text : List Char) :
    toBytes (c :: text) = String.utf8EncodeChar c ++ toBytes text :=
  rfl

theorem toBytes_append (text rest : List Char) :
    toBytes (text ++ rest) = toBytes text ++ toBytes rest :=
  List.flatMap_append

def isContinuation (byte : UInt8) : Bool := 128 ≤ byte.toNat && byte.toNat < 192

theorem isContinuation_ofNat (n : Nat) : isContinuation (UInt8.ofNat (n % 64 + 128)) = true := by
  have hlt : n % 64 < 64 := Nat.mod_lt n (by decide)
  rw [isContinuation, UInt8.toNat_ofNat', Bool.and_eq_true, decide_eq_true_eq, decide_eq_true_eq]
  omega

theorem utf8EncodeChar_of_lt {c : Char} (h : c.toNat < 128) :
    String.utf8EncodeChar c = [UInt8.ofNat c.toNat] := by
  have hle : c.val.toNat ≤ 127 := Nat.le_of_lt_succ h
  rw [String.utf8EncodeChar]
  exact if_pos hle

/-- **No other character has an ASCII code in its form**: a leading byte comes first, and the bytes
after it go on with the character. -/
theorem exists_utf8EncodeChar_eq {c : Char} (h : 128 ≤ c.toNat) :
    ∃ byte bytes, String.utf8EncodeChar c = byte :: bytes ∧ 192 ≤ byte.toNat ∧
      ∀ next ∈ bytes, isContinuation next = true := by
  have hlow : ¬c.val.toNat ≤ 127 := Nat.not_le_of_lt h
  have hfirst (n m k : Nat) (hm : 0 < m) (hk : 192 ≤ k) (hkm : k + m ≤ 256) :
      192 ≤ (UInt8.ofNat (n % m + k)).toNat := by
    have hlt : n % m < m := Nat.mod_lt n hm
    rw [UInt8.toNat_ofNat']
    omega
  have hnext := isContinuation_ofNat
  simp only [String.utf8EncodeChar, if_neg hlow]
  split
  · refine ⟨_, _, rfl, hfirst _ _ _ (by decide) (by decide) (by decide), ?_⟩
    exact List.forall_mem_singleton.2 (hnext _)
  · split
    · refine ⟨_, _, rfl, hfirst _ _ _ (by decide) (by decide) (by decide), ?_⟩
      exact List.forall_mem_cons.2 ⟨hnext _, List.forall_mem_singleton.2 (hnext _)⟩
    · refine ⟨_, _, rfl, hfirst _ _ _ (by decide) (by decide) (by decide), ?_⟩
      exact List.forall_mem_cons.2 ⟨hnext _, List.forall_mem_cons.2 ⟨hnext _,
        List.forall_mem_singleton.2 (hnext _)⟩⟩

/-- **An ASCII code is in the form of the character with that code, and of no other.** -/
theorem mem_utf8EncodeChar_iff {c : Char} {code : Nat} (h : code < 128) :
    UInt8.ofNat code ∈ String.utf8EncodeChar c ↔ c.toNat = code := by
  have hcode : (UInt8.ofNat code).toNat = code := by
    rw [UInt8.toNat_ofNat']
    omega
  by_cases hlow : c.toNat < 128
  · rw [utf8EncodeChar_of_lt hlow, List.mem_singleton, ← UInt8.toNat_inj, hcode,
      UInt8.toNat_ofNat']
    omega
  · obtain ⟨byte, bytes, he, hbyte, hbytes⟩ := exists_utf8EncodeChar_eq (Nat.le_of_not_lt hlow)
    constructor
    · intro hm
      rw [he] at hm
      rcases List.mem_cons.1 hm with rfl | hm
      · omega
      · have hnext := hbytes _ hm
        rw [isContinuation, hcode, Bool.and_eq_true, decide_eq_true_eq] at hnext
        omega
    · intro hc
      omega

/-! ## Counting bytes -/

theorem byteLength_cons (c : Char) (text : List Char) :
    byteLength (c :: text) = c.utf8Size + byteLength text :=
  rfl

theorem length_toBytes_eq (text : List Char) : (toBytes text).length = byteLength text := by
  induction text with
  | nil => rfl
  | cons c text ih =>
      rw [toBytes_cons, List.length_append, String.length_utf8EncodeChar, ih, byteLength_cons]

theorem length_le_byteLength (text : List Char) : text.length ≤ byteLength text := by
  induction text with
  | nil => exact Nat.le_refl 0
  | cons c text ih =>
      have hc := c.utf8Size_pos
      rw [byteLength_cons, List.length_cons]
      omega

end GCode.Text
