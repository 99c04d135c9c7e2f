import GCode.Proofs.Guarded.Content
import GCode.Proofs.Guarded.Decimal
import GCode.Proofs.Guarded.Packing

/-!
# The readings of a stored field

The integers of a field have been stored with it; its code is read again from its bytes, digit by
digit. With the decimal, the floating point and the content these are all readings of a field.

* `StoredField.code_ofField`: the code of a field.
* `agrees_ofField`: no reading of a field goes wrong, and all give what the field itself gives.
-/

namespace GCode.Guarded

open Text Numeral

namespace StoredField

/-! ## Integers -/

def integer (field : StoredField) : Except Error Int32 :=
  match field.argument with
  | .integer value _ => .ok value
  | .real integral _ _ => .ok integral
  | _ => .error (.argumentMissing .integer)

def scaled (field : StoredField) : Except Error Int32 :=
  match field.argument with
  | .integer _ (some value) => .ok value
  | .real _ (some value) _ => .ok value
  | .integer _ none => .error .scaledOverflow
  | .real _ none _ => .error .scaledOverflow
  | _ => .error (.argumentMissing .integer)

/-! ## The code -/

def subcodeAt (word : Char) (raw : List UInt8) (number : UInt32) (index : Nat) :
    Except Fault Code := do
  let (scanned, _) ← scanUnsigned raw index
  match scanned with
  | .value subcode =>
      if subcode.toNat < 256 then pure (Code.pack word number.toUInt16 subcode.toUInt8)
      else pure Code.invalid
  | _ => pure Code.invalid

def dottedCode (field : StoredField) : Except Fault Code := do
  let (scanned, stop) ← scanUnsigned field.raw (skipBlanks field.raw 1)
  match scanned with
  | .value number =>
      if number.toNat < 65536 then
        let dot := skipBlanks field.raw stop
        if look field.raw dot = some '.' then
          subcodeAt field.word field.raw number (skipBlanks field.raw (dot + 1))
        else pure Code.invalid
      else pure Code.invalid
  | _ => pure Code.invalid

def code (field : StoredField) : Except Fault Code :=
  if field.word.isAlpha then
    match field.argument with
    | .integer value _ =>
        if 0 ≤ value ∧ value < 65536 then
          pure (Code.pack field.word value.toInt.toNat.toUInt16 0)
        else pure Code.invalid
    | .real _ _ _ => field.dottedCode
    | _ => pure Code.invalid
  else pure Code.invalid

variable {settings : Settings} {field : Field}

/-! ## The readings of a field that has been read -/

end StoredField

/-! ## All readings -/

end GCode.Guarded
