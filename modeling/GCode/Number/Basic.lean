import GCode.Numeral
import GCode.Text.Blank

/-! # Numbers as they are written

A number on a line may hold blanks: before it, after its sign, and on both sides of its point. The
structure `Number` keeps every part as it stands, so a number is at once its own text (`text`) and
what the readings of its value work on.

`read?` takes the longest number at the head of a text:

* a sign and the blanks after it may come first;
* the whole digits are all digits that follow, and a run past `Numeral.limit` is no number;
* after whole digits a point may follow, even behind blanks, and digits after the point, even
  behind blanks again; blanks after a point that no digits follow are left on the line;
* without whole digits there must be a point and at least one digit after it.
-/

namespace GCode

inductive Sign
  | plus
  | minus
  deriving DecidableEq, Repr

def Sign.char : Sign → Char
  | .plus => '+'
  | .minus => '-'

/-- The sign at the head of a text, with the blanks after it and the text after them. -/
def Sign.read : List Char → Option Sign × List Char × List Char
  | '+' :: text => (some .plus, Text.takeBlanks text, Text.dropBlanks text)
  | '-' :: text => (some .minus, Text.takeBlanks text, Text.dropBlanks text)
  | text => (none, [], text)

theorem Sign.read_append {text signGap rest : List Char} {sign : Option Sign}
    (h : Sign.read text = (sign, signGap, rest)) :
    sign.toList.map Sign.char ++ signGap ++ rest = text := by
  unfold Sign.read at h
  split at h
  case h_1 text =>
    cases h
    simp [Sign.char, Text.takeBlanks_append_dropBlanks]
  case h_2 text =>
    cases h
    simp [Sign.char, Text.takeBlanks_append_dropBlanks]
  case h_3 =>
    cases h
    rfl

/-- A point and the digits after it, with the blanks around the point. -/
structure Point where
  before : List Char
  after : List Char
  digits : List Char
  deriving DecidableEq, Repr

namespace Point

def text (point : Point) : List Char := point.before ++ '.' :: point.after ++ point.digits

/-- The point at the head of a text, blanks before it allowed, with the text after it. Blanks after
the point belong to it only if digits follow them. -/
def read? (text : List Char) : Option (Point × List Char) :=
  let before := Text.takeBlanks text
  match Text.dropBlanks text with
  | '.' :: rest =>
      let inner := Text.dropBlanks rest
      let digits := Numeral.takeDigits inner
      if digits = [] then some (⟨before, [], []⟩, rest)
      else some (⟨before, Text.takeBlanks rest, digits⟩, Numeral.dropDigits inner)
  | _ => none

theorem text_append {text tail : List Char} {point : Point} (h : read? text = some (point, tail)) :
    point.text ++ tail = text := by
  have hb := Text.takeBlanks_append_dropBlanks text
  unfold read? at h
  split at h
  case h_1 rest hd =>
    have hr := Text.takeBlanks_append_dropBlanks rest
    have hn := Numeral.takeDigits_append_dropDigits (Text.dropBlanks rest)
    by_cases he : Numeral.takeDigits (Text.dropBlanks rest) = []
    · simp only [he, if_true] at h
      cases h
      simp [Point.text, ← hd, hb]
    · simp only [he, if_false] at h
      cases h
      simp [Point.text, hn, hr, ← hd, hb]
  case h_2 => cases h

end Point

/-- A number as it stands on a line, the blanks before it included. -/
structure Number where
  gap : List Char
  sign : Option Sign
  signGap : List Char
  /-- The digits before the point. -/
  whole : List Char
  /-- The value of `whole`. -/
  integral : UInt64
  point : Option Point
  deriving DecidableEq, Repr

namespace Number

def argument (n : Number) : List Char :=
  n.sign.toList.map Sign.char ++ n.signGap ++ n.whole ++ (n.point.map Point.text).getD []

/-- A number as it stands on the line. -/
def text (n : Number) : List Char := n.gap ++ n.argument

def isNegative (n : Number) : Bool := n.sign = some .minus

/-- Whether a number has a blank anywhere, before it included. -/
def isSpaced (n : Number) : Bool := n.text.any Text.isBlank

def places (n : Number) : List Char := (n.point.map Point.digits).getD []

/-- The longest number at the head of a text, with the text after it. -/
def read? (text : List Char) : Option (Number × List Char) :=
  let (sign, signGap, unsigned) := Sign.read (Text.dropBlanks text)
  let whole := Numeral.takeDigits unsigned
  match Numeral.bounded? whole with
  | none => none
  | some integral =>
      let number (point : Option Point) : Number :=
        ⟨Text.takeBlanks text, sign, signGap, whole, integral, point⟩
      match Point.read? (Numeral.dropDigits unsigned) with
      | some (point, tail) =>
          if whole = [] ∧ point.digits = [] then none else some (number (some point), tail)
      | none => if whole = [] then none else some (number none, Numeral.dropDigits unsigned)

/-- **A number and the text after it are the text it was read from.** -/
theorem text_append {text tail : List Char} {n : Number} (h : read? text = some (n, tail)) :
    n.text ++ tail = text := by
  have hb := Text.takeBlanks_append_dropBlanks text
  obtain ⟨⟨sign, signGap, unsigned⟩, hs⟩ : ∃ r, Sign.read (Text.dropBlanks text) = r := ⟨_, rfl⟩
  have ha := Sign.read_append hs
  have hd := Numeral.takeDigits_append_dropDigits unsigned
  simp only [read?, hs] at h
  split at h
  · cases h
  · split at h
    next hp =>
      have hp := Point.text_append hp
      split at h
      · cases h
      · cases h
        simp only [Number.text, argument, Option.map_some, Option.getD_some, List.append_assoc,
          hp, hd]
        rw [← List.append_assoc _ signGap, ha, hb]
    next =>
      split at h
      · cases h
      · cases h
        simp only [Number.text, argument, Option.map_none, Option.getD_none, List.append_nil,
          List.append_assoc, hd]
        rw [← List.append_assoc _ signGap, ha, hb]

end Number
end GCode
