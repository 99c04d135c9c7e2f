import GCode.Error
import GCode.Text.Bytes

/-! # Lines of a byte input

An input is split into lines at `\n`, `\r` and `\r\n`. The end of the input ends a last line, which
is empty if the input ends with a terminator. Each line is read as UTF-8 by itself, so one that is
not UTF-8 leaves the others as they are.

A line ends as soon as its `\r` is read. If a `\n` follows, it is the second half of the
terminator, and the next line starts by passing over it.
-/

namespace GCode

structure LineSource where
  unread : List UInt8
  /-- Whether a line feed that comes next belongs to the terminator of the last line. -/
  skipsLineFeed : Bool
  isFinished : Bool
  deriving DecidableEq, Repr

namespace LineSource

def lineFeed : UInt8 := 10

def carriageReturn : UInt8 := 13

def ofBytes (bytes : List UInt8) : LineSource := ⟨bytes, false, false⟩

/-- The bytes of the next line, without its terminator, and the source after it. -/
def takeLine (skipsLineFeed : Bool) : List UInt8 → List UInt8 × LineSource
  | [] => ([], ⟨[], skipsLineFeed, true⟩)
  | byte :: bytes =>
      if byte = lineFeed ∧ skipsLineFeed then takeLine false bytes
      else if byte = lineFeed ∨ byte = carriageReturn then
        ([], ⟨bytes, byte = carriageReturn, false⟩)
      else Prod.map (byte :: ·) id (takeLine false bytes)

def decodeLine (bytes : List UInt8) : Except Error (List Char) :=
  match Text.ofBytes? bytes with
  | some text => .ok text
  | none => .error .invalidUtf8

/-- The next line, nothing after the last one, and the source after it. -/
def next (source : LineSource) : Option (Except Error (List Char)) × LineSource :=
  if source.isFinished then (none, source)
  else
    let (line, after) := takeLine source.skipsLineFeed source.unread
    (some (decodeLine line), after)

/-- The number of bytes that are left, counting the end of the input as one. -/
def size (source : LineSource) : Nat :=
  if source.isFinished then 0 else source.unread.length + 1

theorem size_takeLine_lt (skipsLineFeed : Bool) (bytes : List UInt8) :
    (takeLine skipsLineFeed bytes).2.size < bytes.length + 1 := by
  fun_induction takeLine skipsLineFeed bytes with
  | case1 => simp [size]
  | case2 _ byte bytes _ ih => simp only [List.length_cons]; omega
  | case3 => simp [size]
  | case4 _ byte bytes _ _ ih => simp only [Prod.map_snd, id, List.length_cons]; omega

theorem size_lt {source after : LineSource} {line : Except Error (List Char)}
    (h : source.next = (some line, after)) : after.size < source.size := by
  unfold next at h
  split at h
  · cases h
  next hf =>
    have hs := size_takeLine_lt source.skipsLineFeed source.unread
    cases h
    simpa [size, hf] using hs

def readAll (source : LineSource) : List (Except Error (List Char)) :=
  match _h : source.next with
  | (none, _) => []
  | (some line, after) => line :: after.readAll
termination_by source.size
decreasing_by exact size_lt _h

end LineSource

def linesOf (bytes : List UInt8) : List (Except Error (List Char)) :=
  (LineSource.ofBytes bytes).readAll

end GCode
