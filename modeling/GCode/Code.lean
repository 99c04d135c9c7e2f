import GCode.Numeral

/-! # Codes

A code such as `G1` or `M3.1` is a word, a number of 16 bits and a subcode of 8 bits, packed into
one 32-bit word: the word in the highest byte, then the subcode, then the number. Codes compare as
packed, so they are ordered by word, then subcode, then number. The word zero is the invalid code,
which is below every other.
-/

namespace GCode

/-- A packed code. -/
structure Code where
  bits : UInt32
  deriving DecidableEq, Repr

namespace Code

/-- The code that stands for no code at all. -/
def invalid : Code := ⟨0⟩

instance : Inhabited Code := ⟨invalid⟩

/-- Packs a code; a word that is NUL or not ASCII gives the invalid code. -/
def pack (word : Char) (number : UInt16) (subcode : UInt8) : Code :=
  if word.toNat < 128 ∧ word.toNat ≠ 0 then
    ⟨word.val <<< 24 ||| subcode.toUInt32 <<< 16 ||| number.toUInt32⟩
  else invalid

def word (code : Code) : Char := Char.ofUInt8 (code.bits >>> 24).toUInt8

def number (code : Code) : UInt16 := code.bits.toUInt16

/-- The number after the point, zero if there is none. -/
def subcode (code : Code) : UInt8 := (code.bits >>> 16).toUInt8

def isValid (code : Code) : Bool := code.bits ≠ 0

def ble (a b : Code) : Bool := a.bits ≤ b.bits

def sort (codes : List Code) : List Code := codes.mergeSort ble

/-- A code as it is written: the letter, the number, and the subcode unless it is zero. -/
def text (code : Code) : List Char :=
  if code.isValid then
    code.word :: Numeral.render code.number.toNat ++
      (if code.subcode = 0 then [] else '.' :: Numeral.render code.subcode.toNat)
  else "<invalid>".toList

def label (code : Code) : List Char := "Code(".toList ++ code.text ++ [')']

/-- The codes of the common preparatory commands, by name. -/
def common : List (String × Code) :=
  [ ("G0_RAPID_MOVE", pack 'G' 0 0),
    ("G1_LINEAR_MOVE", pack 'G' 1 0),
    ("G2_CLOCKWISE_ARC_MOVE", pack 'G' 2 0),
    ("G3_COUNTER_CLOCKWISE_ARC_MOVE", pack 'G' 3 0),
    ("G4_DWELL", pack 'G' 4 0),
    ("G5_CUBIC_B_SPLINE_MOVE", pack 'G' 5 0),
    ("G6_DIRECT_STEPPER_MOVE", pack 'G' 6 0),
    ("G10_RETRACT", pack 'G' 10 0),
    ("G11_RECOVER", pack 'G' 11 0),
    ("G12_CLEAN_THE_NOZZLE", pack 'G' 12 0),
    ("G20_INCH_UNITS", pack 'G' 20 0),
    ("G21_MILLIMETER_UNITS", pack 'G' 21 0),
    ("G90_ABSOLUTE_POSITIONING", pack 'G' 90 0),
    ("G91_RELATIVE_POSITIONING", pack 'G' 91 0),
    ("G92_SET_POSITION", pack 'G' 92 0) ]

end Code
end GCode
