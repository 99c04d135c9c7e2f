import Mathlib
import GCode.Settings.Basic

/-!
# Words in one letter case

Bringing a word to a letter case changes nothing more when it is done again, and a letter stays a
letter. So a word that has been read once is read again as itself. Unless letters are kept as they
are, it makes no difference which of its two cases a letter had before.
-/

namespace GCode

theorem toNat_of_isAlpha {c : Char} (h : c.isAlpha = true) : c.toNat < 128 ∧ c.toNat ≠ 0 := by
  have hval : c.val.toNat = c.toNat := rfl
  have hZ : 'Z'.val.toNat = 90 := rfl
  have hA : 'A'.val.toNat = 65 := rfl
  have hz : 'z'.val.toNat = 122 := rfl
  have ha : 'a'.val.toNat = 97 := rfl
  simp only [Char.isAlpha, Char.isUpper, Char.isLower, Bool.or_eq_true, Bool.and_eq_true,
    decide_eq_true_eq, UInt32.le_iff_toNat_le, ge_iff_le] at h
  omega

/-- An ASCII letter in the other letter case, and every other character as it is. -/
def otherCase (c : Char) : Char := if c.isUpper then c.toLower else c.toUpper

namespace LetterCase

theorem apply_apply (letterCase : LetterCase) (c : Char) :
    letterCase.apply (letterCase.apply c) = letterCase.apply c := by
  cases letterCase with
  | keep => rfl
  | upper => exact Char.toUpper_toUpper_eq_toUpper c
  | lower => exact Char.toLower_toLower_eq_toLower c

theorem isAlpha_apply (letterCase : LetterCase) (c : Char) :
    (letterCase.apply c).isAlpha = c.isAlpha := by
  cases letterCase with
  | keep => rfl
  | upper => exact Char.isAlpha_toUpper_eq_isAlpha c
  | lower => exact Char.isAlpha_toLower_eq_isAlpha c

theorem apply_otherCase {letterCase : LetterCase} (h : letterCase ≠ .keep) (c : Char) :
    letterCase.apply (otherCase c) = letterCase.apply c := by
  unfold otherCase
  cases letterCase with
  | keep => exact absurd rfl h
  | upper =>
      split
      · exact Char.toUpper_toLower_eq_toUpper c
      · exact Char.toUpper_toUpper_eq_toUpper c
  | lower =>
      split
      · exact Char.toLower_toLower_eq_toLower c
      · exact Char.toLower_toUpper_eq_toLower c

end LetterCase
end GCode
