/-! # What can go wrong

The causes for which a reading is refused, and the sentence that reports each of them.
-/

namespace GCode

/-- The readings that a field without a fitting argument refuses. -/
inductive Reading
  | integer
  | single
  | double
  | decimal
  | text
  deriving DecidableEq, Repr

def Reading.noun : Reading → String
  | .integer => "integer"
  | .single => "float"
  | .double => "double"
  | .decimal => "decimal"
  | .text => "string"

inductive Error
  /-- The requested number of places is above the largest one allowed. -/
  | invalidScale (scale : Nat)
  /-- The field has no argument that the reading applies to. -/
  | argumentMissing (reading : Reading)
  /-- The number times the power of ten of the settings is past the limit. -/
  | scaledOverflow
  | badNumber
  /-- The literal given for an absent field is not a field with the wanted word. -/
  | defaultWord (word : Char)
  /-- The literal given for an absent field goes on after the field. -/
  | defaultTail (bytes : Nat)
  | invalidUtf8
  deriving DecidableEq, Repr

def Error.message : Error → String
  | .invalidScale scale => "fractional scale must be within 0..=5, got " ++ scale.repr
  | .argumentMissing reading => reading.noun ++ " argument missing"
  | .scaledOverflow => "scaled integer is too big"
  | .badNumber => "bad number format"
  | .defaultWord word =>
      "default field representation must start from '" ++ String.singleton word ++ "'"
  | .defaultTail bytes =>
      "unexpected tail of " ++ bytes.repr ++ " byte(s) after default field parsing"
  | .invalidUtf8 => "line is not valid utf-8"

end GCode
