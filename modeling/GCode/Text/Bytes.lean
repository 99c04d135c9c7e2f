/-! # The bytes of a text

Lines arrive as bytes and are read as UTF-8. Lengths that are reported to a caller count the bytes
of a text, not its characters.
-/

namespace GCode.Text

def byteLength (text : List Char) : Nat := text.foldr (fun c length => c.utf8Size + length) 0

def toBytes (text : List Char) : List UInt8 := text.flatMap String.utf8EncodeChar

/-- The text whose UTF-8 form the bytes are. An overlong form, half of a surrogate pair, a value
past the last character or a sequence cut short is no text. -/
def ofBytes? (bytes : List UInt8) : Option (List Char) :=
  bytes.toByteArray.utf8Decode?.map Array.toList

end GCode.Text
