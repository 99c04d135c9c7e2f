import GCode.Literal
import GCode.Text.Lowercase

/-! # The content of an argument

The content of a quoted text is what it stands for, the content of a number is its own text. Either
is decoded straight from the text of the line: all at once (`Content.chars`), or by a reader that
gives one character at a time (`ContentReader.next`). A lower-case form of several characters
stays with the reader until all of it has been given.
-/

namespace GCode

/-- Which escapes a text is decoded with. -/
inductive Escape
  /-- None: the text is its own content. -/
  | verbatim
  /-- A quote stands for the character after it. -/
  | quotes
  /-- A quote stands for the character after it, an apostrophe for the lower-case form of it. -/
  | quotesAndApostrophes
  deriving DecidableEq, Repr

/-- Whether a character makes the one after it part of the content. -/
def Escape.marks (escape : Escape) (c : Char) : Bool :=
  match escape with
  | .verbatim => false
  | .quotes => c = quote
  | .quotesAndApostrophes => c = quote || c = apostrophe

/-- What a mark and the character after it stand for. -/
def Escape.expand (mark c : Char) : List Char :=
  if mark = apostrophe then Text.lowercase c else [c]

theorem Escape.expand_ne_nil (mark c : Char) : Escape.expand mark c ≠ [] := by
  unfold Escape.expand
  split
  · exact Text.lowercase_ne_nil c
  · simp

/-- The content of an argument: text of the line and how to decode it. -/
structure Content where
  source : List Char
  escape : Escape
  /-- The number of bytes of the content, before any lower-casing. -/
  length : Nat
  deriving DecidableEq, Repr

namespace Content

def verbatim (text : List Char) : Content := ⟨text, .verbatim, Text.byteLength text⟩

/-- The content as it stands on the line, if it needs no decoding. -/
def asWritten? (content : Content) : Option (List Char) :=
  if content.escape = .verbatim then some content.source else none

/-- The characters that a text stands for. A mark at its end, such as a closing quote, stands for
nothing. -/
def decode (escape : Escape) : List Char → List Char
  | [] => []
  | [c] => if escape.marks c then [] else [c]
  | c :: d :: text =>
      if escape.marks c then Escape.expand c d ++ decode escape text
      else c :: decode escape (d :: text)

def chars (content : Content) : List Char := decode content.escape content.source

/-- The content as one text, straight from the line if it needs no decoding. -/
def text (content : Content) : List Char := content.asWritten?.getD content.chars

def isText (content : Content) (text : List Char) : Bool := content.chars = text

end Content

/-! ### One character at a time -/

structure ContentReader where
  escape : Escape
  /-- What is left of a lower-case form of several characters. -/
  pending : List Char
  rest : List Char
  deriving DecidableEq, Repr

namespace ContentReader

def ofContent (content : Content) : ContentReader := ⟨content.escape, [], content.source⟩

def next (reader : ContentReader) : Option Char × ContentReader :=
  match reader.pending, reader.rest with
  | c :: pending, rest => (some c, ⟨reader.escape, pending, rest⟩)
  | [], [] => (none, reader)
  | [], c :: rest =>
      if reader.escape.marks c then
        match rest with
        | [] => (none, ⟨reader.escape, [], []⟩)
        | d :: rest =>
            let form := Escape.expand c d
            (form.head?, ⟨reader.escape, form.tail, rest⟩)
      else (some c, ⟨reader.escape, [], rest⟩)

def remaining (reader : ContentReader) : List Char :=
  reader.pending ++ Content.decode reader.escape reader.rest

/-- **A reader gives the first of the characters that are left, and leaves the others.** -/
theorem next_eq (reader : ContentReader) :
    reader.next.1 = reader.remaining.head? ∧ reader.next.2.remaining = reader.remaining.tail := by
  obtain ⟨escape, pending, rest⟩ := reader
  cases pending with
  | cons c pending => simp [next, remaining]
  | nil =>
      cases rest with
      | nil => simp [next, remaining, Content.decode]
      | cons c rest =>
          by_cases hm : escape.marks c = true
          · cases rest with
            | nil => simp [next, remaining, Content.decode, hm]
            | cons d rest =>
                obtain ⟨e, form, hf⟩ := List.exists_cons_of_ne_nil (Escape.expand_ne_nil c d)
                simp [next, remaining, Content.decode, hm, hf]
          · cases rest <;> simp [next, remaining, Content.decode, hm]

end ContentReader
end GCode
