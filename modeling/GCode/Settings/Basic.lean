import GCode.Error

/-! # Settings

How lines are read: the letter case that words are brought to, the number of decimal places kept by
scaled integers, and whether an apostrophe inside a quoted text lower-cases what follows it.

The number of places is at most `maxScale` in every value of `Settings`, so that the power of ten
it stands for, and with it the largest whole number that can be scaled, fit a 32-bit word.
-/

namespace GCode

inductive LetterCase
  | keep
  | upper
  | lower
  deriving DecidableEq, Repr

/-- Brings an ASCII letter to a letter case; every other character stays as it is. -/
def LetterCase.apply : LetterCase → Char → Char
  | .keep, c => c
  | .upper, c => c.toUpper
  | .lower, c => c.toLower

/-- The largest number of decimal places that scaled integers can keep. -/
def maxScale : Nat := 5

/-- How lines are read. -/
structure Settings where
  letterCase : LetterCase := .upper
  /-- The number of decimal places that scaled integers keep. -/
  scale : Nat := 0
  /-- Whether an apostrophe in a quoted text lower-cases the next character. -/
  apostropheEscape : Bool := false
  scale_le : scale ≤ maxScale := by decide
  deriving DecidableEq, Repr

namespace Settings

/-- Upper-case words, no decimal places, and apostrophes that stand for themselves. -/
instance : Inhabited Settings := ⟨{}⟩

/-- Settings with the given options, unless the number of places is too large. -/
def make (letterCase : LetterCase) (scale : Nat) (apostropheEscape : Bool) :
    Except Error Settings :=
  if h : scale ≤ maxScale then
    .ok { letterCase, scale, apostropheEscape, scale_le := h }
  else .error (.invalidScale scale)

def withLetterCase (settings : Settings) (letterCase : LetterCase) : Settings :=
  { settings with letterCase }

def withScale (settings : Settings) (scale : Nat) : Except Error Settings :=
  make settings.letterCase scale settings.apostropheEscape

def withApostropheEscape (settings : Settings) (apostropheEscape : Bool) : Settings :=
  { settings with apostropheEscape }

/-- The power of ten by which numbers are scaled. -/
def scaleFactor (settings : Settings) : Int32 := 10 ^ settings.scale

/-- The largest whole number that is still in range once scaled. -/
def maxScalable (settings : Settings) : Int32 := Int32.maxValue / settings.scaleFactor

end Settings
end GCode
