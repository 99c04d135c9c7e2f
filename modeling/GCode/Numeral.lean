/-! # Digit runs

The number that a run of decimal digits writes, read two ways. `value` is that number, however
long the run is. `bounded?` and `fixed?` read the run from left to right in a 64-bit word and stop
at the first value past `limit`. The word never wraps: it holds at most `limit` before each step,
and ten times that and nine is far below `2 ^ 64`.
-/

namespace GCode.Numeral

def takeDigits (text : List Char) : List Char := text.takeWhile Char.isDigit

def dropDigits (text : List Char) : List Char := text.dropWhile Char.isDigit

theorem takeDigits_append_dropDigits (text : List Char) :
    takeDigits text ++ dropDigits text = text :=
  List.takeWhile_append_dropWhile

def value (digits : List Char) : Nat := Nat.ofDigitChars 10 digits 0

/-- The run of digits that writes a number, without superfluous zeros. -/
def render (n : Nat) : List Char := Nat.toDigits 10 n

/-- The largest value a field can hold, that of a signed 32-bit integer. -/
def limit : UInt64 := 2147483647

def push (word : UInt64) (digit : Char) : UInt64 :=
  word * 10 + (digit.toNat - '0'.toNat).toUInt64

/-- Appends a run of digits to a word, `none` once the value is past the limit. -/
def appendDigits? (word : UInt64) : List Char → Option UInt64
  | [] => some word
  | digit :: digits =>
      let next := push word digit
      if limit < next then none else appendDigits? next digits

/-- The number that a run of digits writes, `none` if it is past the limit. -/
def bounded? (digits : List Char) : Option UInt64 := appendDigits? 0 digits

/-- Appends exactly `places` digits to a word: those of the run, zeros once it is used up, and
nothing of what the run has beyond that. The result is `none` once the value is past the limit. -/
def fixed? : (places : Nat) → (word : UInt64) → (digits : List Char) → Option UInt64
  | 0, word, _ => some word
  | places + 1, word, digits =>
      let next := push word (digits.head?.getD '0')
      if limit < next then none else fixed? places next digits.tail

end GCode.Numeral
