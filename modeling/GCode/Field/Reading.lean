import GCode.Code
import GCode.Content
import GCode.Field.Basic

/-! # The readings of a field

A number can be read as an integer, scaled, in floating point, as a decimal and as text, a quoted
text as text only. A reading that the argument does not fit is refused with `argumentMissing`.

A field whose word is a letter can also be read as a code. A number without a point makes a code by
its value, whatever sign it was written with. A number with a point makes one by its digits: it may
not have a sign, and needs digits on both sides of the point.
-/

namespace GCode.Field

/-- The part of the number before the point. -/
def integer (field : Field) : Except Error Int32 :=
  match field.argument with
  | .number n _ => .ok n.toInt
  | _ => .error (.argumentMissing .integer)

/-- The number scaled by the settings that the field was read with. -/
def scaled (field : Field) : Except Error Int32 :=
  match field.argument with
  | .number _ (some value) => .ok value
  | .number _ none => .error .scaledOverflow
  | _ => .error (.argumentMissing .integer)

/-- The exact value that floating point rounds. A number without a point is its integer, so that
its zero has no sign. -/
def exactValue (reading : Reading) (field : Field) : Except Error Exact :=
  match field.argument with
  | .number n _ =>
      if n.point.isNone then .ok ⟨n.toInt < 0, n.toInt.toInt.natAbs, 0⟩
      else
        match n.toExact? with
        | some x => .ok x
        | none => .error .badNumber
  | _ => .error (.argumentMissing reading)

def single (field : Field) : Except Error Single := (field.exactValue .single).map Exact.toSingle

def double (field : Field) : Except Error Double := (field.exactValue .double).map Exact.toDouble

def decimal (field : Field) : Except Error Decimal :=
  match field.argument with
  | .number n _ => .ok n.toDecimal
  | _ => .error (.argumentMissing .decimal)

/-- The content of a quoted text, given how it is written and what follows its opening quote. A text
with escapes is decoded up to its closing quote; without escapes, the closing quote is cut off. -/
def quotedContent (kind : ArgumentKind) (text : List Char) (length : Nat) : Content :=
  match kind with
  | .textCompact => ⟨text.dropLast, .verbatim, length⟩
  | .textEscaped => ⟨text, .quotes, length⟩
  | .textEscapedApostrophe => ⟨text, .quotesAndApostrophes, length⟩
  | _ => ⟨if text.getLast? = some quote then text.dropLast else text, .verbatim, length⟩

def content (field : Field) : Except Error Content :=
  match field.argument with
  | .absent => .error (.argumentMissing .text)
  | .number _ _ => .ok (Content.verbatim field.argumentText)
  | .quoted _ literal _ => .ok (quotedContent field.kind field.argumentText.tail literal.length)

/-! ### Codes -/

/-- The code that a number makes with a word. The number has to fit 16 bits, the subcode after the
point 8 bits. -/
def codeOf (word : Char) (n : Number) : Code :=
  match n.point with
  | none =>
      if 0 ≤ n.toInt ∧ n.toInt < 65536 then Code.pack word n.toInt.toInt.toNat.toUInt16 0
      else Code.invalid
  | some point =>
      match Numeral.bounded? point.digits with
      | some subcode =>
          if n.sign = none ∧ n.whole ≠ [] ∧ point.digits ≠ [] ∧ n.integral < 65536 ∧ subcode < 256
          then Code.pack word n.integral.toUInt16 subcode.toUInt8
          else Code.invalid
      | none => Code.invalid

/-- The code of a field, invalid unless its word is a letter and its argument a number that fits. -/
def code (field : Field) : Code :=
  match field.argument with
  | .number n _ => if field.word.isAlpha then codeOf field.word n else Code.invalid
  | _ => Code.invalid

end GCode.Field
