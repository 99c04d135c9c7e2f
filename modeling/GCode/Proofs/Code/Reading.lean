import GCode.Proofs.Code.Order
import GCode.Proofs.Command.Rendering

/-!
# Codes and their texts

A code whose word is a letter is written as that letter, its number and, unless it is zero, its
subcode behind a point. As a line by itself that text is the command with this code and nothing
behind it, as long as letters are kept as they are. So no two codes are written the same way,
although a code with a point is read in another way than one without.

* `Command.read?_text_pack`: the text of a code as a line.
* `Code.parts_eq_of_text_eq`: codes with the same text are the same.
* `Code.known_by_parts`: everything that the parts of a code decide.
-/

namespace GCode

open Text

/-- **The text of a code is a command with that code** and an empty body. -/
theorem Command.read?_text_pack {settings : Settings} (hkeep : settings.letterCase = .keep)
    {word : Char} (ha : word.isAlpha = true) (number : UInt16) (subcode : UInt8) :
    read? settings (Code.pack word number subcode).text =
      some ⟨Code.pack word number subcode, [], settings⟩ := by
  have hc : settings.letterCase.apply word = word := by
    rw [hkeep]
    rfl
  have hnumber := Number.read?_text_append (Code.wellFormed_written number subcode)
    (Code.ends_written stops_nil fun _ => stops_nil)
  rw [← List.append_nil (Code.text _), read?_text_append ha hc hnumber, Field.codeOf_written,
    if_pos (Field.isValid_pack ha number subcode)]
  rfl

namespace Code

variable {word word' : Char} {number number' : UInt16} {subcode subcode' : UInt8}

theorem pack_eq_invalid_iff :
    pack word number subcode = invalid ↔ word.toNat = 0 ∨ 128 ≤ word.toNat := by
  constructor
  · intro h
    by_contra hnot
    have hvalid : (pack word number subcode).isValid = true := isValid_pack_iff.2 (by omega)
    rw [h] at hvalid
    exact absurd hvalid Field.not_isValid_invalid
  · intro h
    exact if_neg (by omega)

/-- **Letters, numbers and subcodes are told apart by the text of their code.** -/
theorem parts_eq_of_text_eq (ha : word.isAlpha = true) (ha' : word'.isAlpha = true)
    (h : (pack word number subcode).text = (pack word' number' subcode').text) :
    word = word' ∧ number = number' ∧ subcode = subcode' := by
  have hkeep : ({ letterCase := .keep } : Settings).letterCase = .keep := rfl
  have hread := Command.read?_text_pack hkeep ha number subcode
  rw [h, Command.read?_text_pack hkeep ha' number' subcode'] at hread
  have hcode : pack word' number' subcode' = pack word number subcode :=
    congrArg Command.code (Option.some.inj hread)
  have hw := toNat_of_isAlpha ha
  have hw' := toNat_of_isAlpha ha'
  refine ⟨?_, ?_, ?_⟩
  · rw [← word_pack hw number subcode, ← hcode, word_pack hw']
  · rw [← number_pack hw number subcode, ← hcode, number_pack hw']
  · rw [← subcode_pack hw number subcode, ← hcode, subcode_pack hw']

/-- **A code is known by its parts.** Only a word that is NUL or not ASCII makes the invalid code;
any other goes into a valid one with its number and its subcode, and all three are found in it
again. Codes are the same exactly if their parts are, and ordered by word, subcode and number, in
this order, the invalid one below all valid ones; sorting gives the one arrangement with that order.
Behind a letter the parts are told apart by the text of the code, and that text is read as a command
that is this code and nothing more. -/
theorem known_by_parts :
    (∀ word number subcode,
      (pack word number subcode = invalid ↔ word.toNat = 0 ∨ 128 ≤ word.toNat) ∧
        (¬(word.toNat = 0 ∨ 128 ≤ word.toNat) →
          (pack word number subcode).isValid = true ∧ (pack word number subcode).word = word ∧
            (pack word number subcode).number = number ∧
            (pack word number subcode).subcode = subcode)) ∧
    (∀ a b : Code,
      (a = b ↔ a.word = b.word ∧ a.number = b.number ∧ a.subcode = b.subcode) ∧
        (a.ble b = true ↔ a.key ≤ b.key) ∧ (b.isValid = true ↔ invalid.key < b.key)) ∧
    (∀ codes : List Code,
      (sort codes).Perm codes ∧ (sort codes).Pairwise (·.key ≤ ·.key) ∧
        ∀ sorted : List Code, sorted.Perm codes → sorted.Pairwise (·.key ≤ ·.key) →
          sorted = sort codes) ∧
    ∀ word number subcode, word.isAlpha = true →
      (∀ word' number' subcode', word'.isAlpha = true →
        (pack word number subcode).text = (pack word' number' subcode').text →
        word = word' ∧ number = number' ∧ subcode = subcode') ∧
      ∀ settings : Settings, settings.letterCase = .keep →
        Command.read? settings (pack word number subcode).text =
          some ⟨pack word number subcode, [], settings⟩ := by
  refine ⟨?_, ?_, ?_, ?_⟩
  · intro word number subcode
    refine ⟨pack_eq_invalid_iff, fun h => ?_⟩
    have hw : word.toNat < 128 ∧ word.toNat ≠ 0 := by omega
    exact ⟨isValid_pack_iff.2 hw, word_pack hw number subcode, number_pack hw number subcode,
      subcode_pack hw number subcode⟩
  · intro a b
    exact ⟨eq_iff_parts, ble_iff_key_le, invalid_key_lt_iff.symm⟩
  · intro codes
    exact ⟨perm_sort codes, pairwise_sort codes, fun _ => eq_sort⟩
  · intro word number subcode ha
    exact ⟨fun _ _ _ => parts_eq_of_text_eq ha,
      fun _ hkeep => Command.read?_text_pack hkeep ha number subcode⟩

theorem known_by_parts_mixed :
    pack '\u00e9' 1 1 = invalid ∧ 128 ≤ '\u00e9'.toNat ∧
      [invalid, pack 'G' 65535 0, pack 'G' 1 255, pack 'G' 65535 255, pack 'g' 0 1] =
        sort [pack 'g' 0 1, pack 'G' 65535 255, pack '\u00e9' 1 1, pack 'G' 1 255,
          pack 'G' 65535 0] ∧
      (pack 'G' 65535 255).text = "G65535.255".toList ∧
      Command.read? { letterCase := .keep, scale := 5 } "G65535.255".toList =
        some ⟨pack 'G' 65535 255, [], { letterCase := .keep, scale := 5 }⟩ := by
  obtain ⟨hpack, -, hsort, htext⟩ := known_by_parts
  have hinvalid := (hpack '\u00e9' 1 1).1.2 (.inr (by decide))
  have hwritten : (pack 'G' 65535 255).text = "G65535.255".toList := by decide
  obtain ⟨-, hread⟩ := htext 'G' 65535 255 (by decide)
  rw [hwritten] at hread
  refine ⟨hinvalid, by decide, (hsort _).2.2 _ ?_ ?_, hwritten, hread _ rfl⟩
  · decide
  · decide

end Code
end GCode
