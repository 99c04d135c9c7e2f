import GCode.Proofs.Code.Packing
import Mathlib.Data.Prod.Lex

/-!
# The order of codes

A code is its three parts side by side, so two codes with the same parts are the same, and comparing
the packed words compares the parts one after another: the word, then the subcode, then the number.
This order is total, so there is only one way to sort codes.

* `Code.toNat_bits_eq`: every code is its parts, side by side.
* `Code.eq_iff_parts`, `Code.ble_iff_key_le`: equality and order of codes by their parts.
* `Code.eq_sort`: sorting gives the one ordered arrangement.
-/

namespace GCode.Code

variable {a b : Code}

/-- **Every code is its parts, side by side.** -/
theorem toNat_bits_eq (code : Code) :
    code.bits.toNat = (code.word.toNat * 256 + code.subcode.toNat) * 65536 + code.number.toNat := by
  rw [toNat_word, toNat_subcode, toNat_number]
  omega

/-- **Codes with the same parts are the same.** -/
theorem eq_iff_parts :
    a = b ↔ a.word = b.word ∧ a.number = b.number ∧ a.subcode = b.subcode := by
  constructor
  · rintro rfl
    exact ⟨rfl, rfl, rfl⟩
  · rintro ⟨hword, hnumber, hsubcode⟩
    have hbits : a.bits.toNat = b.bits.toNat := by
      rw [toNat_bits_eq a, toNat_bits_eq b, hword, hnumber, hsubcode]
    obtain ⟨bits⟩ := a
    obtain ⟨bits'⟩ := b
    exact congrArg Code.mk (UInt32.toNat_inj.1 hbits)

/-! ## The order -/

/-- The parts of a code in the order in which they count. -/
def key (code : Code) : Nat ×ₗ Nat ×ₗ Nat :=
  toLex (code.word.toNat, toLex (code.subcode.toNat, code.number.toNat))

/-- **Codes are ordered by word, then subcode, then number.** -/
theorem ble_iff_key_le : a.ble b = true ↔ a.key ≤ b.key := by
  have ha := toNat_bits_eq a
  have hb := toNat_bits_eq b
  have hsa : a.subcode.toNat < 256 := a.subcode.toNat_lt
  have hsb : b.subcode.toNat < 256 := b.subcode.toNat_lt
  have hna : a.number.toNat < 65536 := a.number.toNat_lt
  have hnb : b.number.toNat < 65536 := b.number.toNat_lt
  rw [ble, decide_eq_true_eq, UInt32.le_iff_toNat_le, key, key, Prod.Lex.toLex_le_toLex,
    Prod.Lex.toLex_le_toLex]
  omega

theorem key_inj : a.key = b.key ↔ a = b := by
  constructor
  · intro h
    have hab : a.bits ≤ b.bits := of_decide_eq_true (ble_iff_key_le.2 h.le)
    have hba : b.bits ≤ a.bits := of_decide_eq_true (ble_iff_key_le.2 h.ge)
    obtain ⟨bits⟩ := a
    obtain ⟨bits'⟩ := b
    exact congrArg Code.mk (UInt32.le_antisymm hab hba)
  · rintro rfl
    rfl

/-- **Every valid code is above the invalid one.** -/
theorem invalid_key_lt_iff : invalid.key < a.key ↔ a.isValid = true := by
  rw [lt_iff_le_and_ne, ← ble_iff_key_le, ne_eq, key_inj, isValid, decide_eq_true_eq]
  have hle : invalid.ble a = true := decide_eq_true (UInt32.zero_le)
  constructor
  · rintro ⟨-, hne⟩ hbits
    exact hne (congrArg Code.mk hbits.symm)
  · intro hbits
    refine ⟨hle, ?_⟩
    rintro rfl
    exact hbits rfl

/-! ## Sorting -/

theorem perm_sort (codes : List Code) : (sort codes).Perm codes := List.mergeSort_perm codes ble

theorem pairwise_sort (codes : List Code) : (sort codes).Pairwise (·.key ≤ ·.key) := by
  have htrans (a b c : Code) (hab : a.ble b = true) (hbc : b.ble c = true) : a.ble c = true :=
    ble_iff_key_le.2 ((ble_iff_key_le.1 hab).trans (ble_iff_key_le.1 hbc))
  have htotal (a b : Code) : (a.ble b || b.ble a) = true := by
    rw [Bool.or_eq_true, ble_iff_key_le, ble_iff_key_le]
    exact le_total a.key b.key
  exact (List.pairwise_mergeSort htrans htotal codes).imp ble_iff_key_le.1

/-- **There is only one ordered arrangement of codes.** -/
theorem eq_sort {codes sorted : List Code} (hperm : sorted.Perm codes)
    (hsorted : sorted.Pairwise (·.key ≤ ·.key)) : sorted = sort codes := by
  refine List.Perm.eq_of_pairwise ?_ hsorted (pairwise_sort codes)
    (hperm.trans (perm_sort codes).symm)
  intro a b _ _ hab hba
  exact key_inj.1 (le_antisymm hab hba)

end GCode.Code
