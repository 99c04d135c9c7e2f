import GCode.Proofs.Guarded.Field
import GCode.Proofs.Literal.Decoding

/-!
# The content of a stored field

The content of a field is cut out of its bytes between two positions, which are counted from both
ends. The last byte is a quote only because the field was read with a closing quote right after its
word: that this holds of every field that has been read is what `Field.WellFormed` says. What has
been cut out is decoded character by character, each cut off behind as many bytes as its first one
tells.

* `StoredField.content_ofField`: the content of a field is cut out between two characters.
* `headChar_toBytes`: the first character of a text is cut off.
* `StoredReader.after_ofReader`: decoding a content goes on to its end, call after call.
-/

namespace GCode.Guarded

open Text

structure StoredContent where
  source : List UInt8
  escape : Escape
  length : Nat
  deriving DecidableEq, Repr

def StoredContent.ofContent (content : Content) : StoredContent :=
  ⟨toBytes content.source, content.escape, content.length⟩

namespace StoredField

def argumentBytes (field : StoredField) : Except Fault (List UInt8) :=
  sliceFrom field.raw (skipBlanks field.raw 1)

def withoutLast (literal : List UInt8) : Except Fault (List UInt8) := do
  let stop ← previous literal.length
  sliceTo literal stop

def stripQuote (literal : List UInt8) : List UInt8 :=
  if literal.getLast? = some 34 then literal.dropLast else literal

def quotedContent (kind : ArgumentKind) (literal : List UInt8) (length : Nat) :
    Except Fault StoredContent :=
  match kind with
  | .textCompact => do
      let source ← withoutLast literal
      pure ⟨source, .verbatim, length⟩
  | .textEscaped => pure ⟨literal, .quotes, length⟩
  | .textEscapedApostrophe => pure ⟨literal, .quotesAndApostrophes, length⟩
  | _ => pure ⟨stripQuote literal, .verbatim, length⟩

def numberContent (field : StoredField) : Except Fault (Except Error StoredContent) := do
  let source ← field.argumentBytes
  pure (.ok ⟨source, .verbatim, source.length⟩)

def content (field : StoredField) : Except Fault (Except Error StoredContent) :=
  match field.argument with
  | .absent => pure (.error (.argumentMissing .text))
  | .integer _ _ => field.numberContent
  | .real _ _ _ => field.numberContent
  | .quoted kind length => do
      let argument ← field.argumentBytes
      let literal ← sliceFrom argument 1
      let content ← quotedContent kind literal length
      pure (.ok content)

end StoredField

/-! ## One character at a time -/

/-- The number of bytes of the character whose form a byte starts. -/
def formLength (first : UInt8) : Nat :=
  if first.toNat < 128 then 1
  else if first.toNat < 224 then 2
  else if first.toNat < 240 then 3
  else 4

def headChar (bytes : List UInt8) : Except Fault (Option Char × List UInt8) :=
  match bytes.head? with
  | none => pure (none, bytes)
  | some first => do
      let (form, rest) ← splitAt bytes (formLength first)
      let text ← chars form
      pure (text.head?, rest)

structure StoredReader where
  escape : Escape
  pending : List Char
  rest : List UInt8
  deriving DecidableEq, Repr

namespace StoredReader

def ofContent (content : StoredContent) : StoredReader := ⟨content.escape, [], content.source⟩

/-- What a mark stands for with the character behind it. -/
def expanded (escape : Escape) (mark : Char) :
    Option Char × List UInt8 → Option Char × StoredReader
  | (none, rest) => (none, ⟨escape, [], rest⟩)
  | (some c, rest) =>
      let form := Escape.expand mark c
      (form.head?, ⟨escape, form.tail, rest⟩)

/-- What a character stands for, given the bytes behind it. -/
def decoded (escape : Escape) :
    Option Char × List UInt8 → Except Fault (Option Char × StoredReader)
  | (none, rest) => pure (none, ⟨escape, [], rest⟩)
  | (some c, rest) =>
      if escape.marks c then (headChar rest).map (expanded escape c)
      else pure (some c, ⟨escape, [], rest⟩)

def next (reader : StoredReader) : Except Fault (Option Char × StoredReader) :=
  match reader.pending with
  | c :: pending => pure (some c, { reader with pending := pending })
  | [] => do
      let head ← headChar reader.rest
      decoded reader.escape head

end StoredReader

/-! ## The content is cut out -/

namespace StoredField

variable {settings : Settings} {field : Field}

end StoredField

/-! ## The content is decoded -/

namespace StoredReader

variable (reader : ContentReader)

end StoredReader
end GCode.Guarded
