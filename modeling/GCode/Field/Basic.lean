import GCode.Literal
import GCode.Number.Reading

/-! # Fields

A field is a word, a letter or an asterisk, with an argument: nothing, a number, or a quoted text.
Blanks between the word and its argument belong to the argument.

A text after the word that is no argument, such as `-Y`, a lone point or a number past the limit,
leaves the word without an argument if blanks stand before it. If it touches the word there is no
field at all (`Field.read`).
-/

namespace GCode

inductive Argument
  | absent
  /-- A number, and its value scaled by the settings it was read with. -/
  | number (n : Number) (scaled : Option Int32)
  | quoted (gap : List Char) (literal : Literal) (apostropheEscape : Bool)
  deriving DecidableEq, Repr

def Argument.text : Argument → List Char
  | .absent => []
  | .number n _ => n.text
  | .quoted gap literal _ => gap ++ quote :: literal.text

/-- How an argument is written. -/
inductive ArgumentKind
  | absent
  /-- A number without a point. -/
  | integer
  /-- A number with a point and without blanks. -/
  | realCompact
  /-- A number with a point and with blanks. -/
  | realSpaced
  /-- A quoted text with both quotes, right after the word, without escapes. -/
  | textCompact
  /-- Any other quoted text without escapes. -/
  | textPlain
  /-- A quoted text with an escape, apostrophes standing for themselves. -/
  | textEscaped
  /-- A quoted text with an escape, apostrophes being escapes. -/
  | textEscapedApostrophe
  deriving DecidableEq, Repr

def ArgumentKind.name : ArgumentKind → String
  | .absent => "NoArgument"
  | .integer => "Integer"
  | .realCompact => "RealCompact"
  | .realSpaced => "RealSpaced"
  | .textCompact => "StringCompact"
  | .textPlain => "StringMaybeUnterminated"
  | .textEscaped => "StringEscaped"
  | .textEscapedApostrophe => "StringEscapedSingleQuote"

def Argument.kind : Argument → ArgumentKind
  | .absent => .absent
  | .number n _ =>
      if n.point.isNone then .integer else if n.isSpaced then .realSpaced else .realCompact
  | .quoted gap literal apostropheEscape =>
      if literal.isEscaped then
        if apostropheEscape then .textEscapedApostrophe else .textEscaped
      else if gap = [] ∧ literal.isClosed then .textCompact
      else .textPlain

/-- A word with its argument. -/
structure Field where
  /-- The word as it stands on the line. -/
  letter : Char
  /-- The word in the letter case of the settings. -/
  word : Char
  argument : Argument
  deriving DecidableEq, Repr

namespace Field

def isWord (c : Char) : Bool := c.isAlpha || c = '*'

/-- The argument at the head of a text, with the text after it; `none` if the text is not empty and
no argument starts there. -/
def readArgument? (settings : Settings) (text : List Char) : Option (Argument × List Char) :=
  match Text.dropBlanks text with
  | [] => some (.absent, text)
  | c :: rest =>
      if c = quote then
        let (literal, tail) := Literal.read settings.apostropheEscape rest
        some (.quoted (Text.takeBlanks text) literal settings.apostropheEscape, tail)
      else
        (Number.read? text).map fun (n, tail) => (.number n (n.scaled? settings), tail)

/-- The field at the head of a line and the text after it. Where there is no field, nothing of the
line is consumed. -/
def read (settings : Settings) (line : List Char) : Option Field × List Char :=
  match line with
  | [] => (none, line)
  | letter :: text =>
      if isWord letter then
        let word := settings.letterCase.apply letter
        match readArgument? settings text with
        | some (argument, tail) => (some ⟨letter, word, argument⟩, tail)
        | none =>
            if Text.takeBlanks text = [] then (none, line)
            else (some ⟨letter, word, .absent⟩, text)
      else (none, line)

/-- The field at the head of a line, if there is one, with the text after it. -/
def read? (settings : Settings) (line : List Char) : Option (Field × List Char) :=
  let (field, tail) := read settings line
  field.map (·, tail)

def raw (field : Field) : List Char := field.letter :: field.argument.text

/-- The argument as it stands on the line, without the blanks in front. -/
def argumentText (field : Field) : List Char := Text.dropBlanks field.argument.text

def kind (field : Field) : ArgumentKind := field.argument.kind

def hasArgument (field : Field) : Bool := field.argument ≠ .absent

theorem text_append_of_readArgument? {settings : Settings} {text tail : List Char}
    {argument : Argument} (h : readArgument? settings text = some (argument, tail)) :
    argument.text ++ tail = text := by
  have hb := Text.takeBlanks_append_dropBlanks text
  unfold readArgument? at h
  split at h
  · cases h
    rfl
  next c rest hd =>
    split at h
    next hq =>
      have hl := Literal.text_append settings.apostropheEscape rest
      cases h
      simp only [Argument.text, List.append_assoc, List.cons_append, hl]
      rw [← hq, ← hd, hb]
    · obtain ⟨⟨n, tail'⟩, hn, he⟩ := Option.map_eq_some_iff.1 h
      cases he
      exact Number.text_append hn

theorem read_eq_some_iff {settings : Settings} {line tail : List Char} {field : Field} :
    read settings line = (some field, tail) ↔ read? settings line = some (field, tail) := by
  rw [read?]
  cases read settings line with
  | mk found rest => cases found <;> simp

/-- **A field and the text after it are the line it was read from.** -/
theorem raw_append {settings : Settings} {line tail : List Char} {field : Field}
    (h : read? settings line = some (field, tail)) : field.raw ++ tail = line := by
  have hr := read_eq_some_iff.2 h
  unfold read at hr
  split at hr
  · cases hr
  · split at hr
    · split at hr
      next ha =>
        cases hr
        simp only [raw, List.cons_append, text_append_of_readArgument? ha]
      · split at hr
        · cases hr
        · cases hr
          rfl
    · cases hr

/-- **Where there is no field, nothing of the line is consumed.** -/
theorem tail_eq_of_read {settings : Settings} {line tail : List Char}
    (h : read settings line = (none, tail)) : tail = line := by
  unfold read at h
  split at h
  · cases h
    rfl
  · split at h
    · split at h
      · cases h
      · split at h
        · cases h
          rfl
        · cases h
    · cases h
      rfl

theorem read_eq_none_iff {settings : Settings} {line : List Char} :
    read settings line = (none, line) ↔ read? settings line = none := by
  constructor
  · intro h
    rw [read?, h]
    rfl
  · intro h
    have hnone : (read settings line).1 = none := Option.map_eq_none_iff.1 h
    have hread : read settings line = (none, (read settings line).2) := by rw [← hnone]
    rw [hread, tail_eq_of_read hread]

theorem length_lt_of_read? {settings : Settings} {line tail : List Char} {field : Field}
    (h : read? settings line = some (field, tail)) : tail.length < line.length := by
  have hl := congrArg List.length (raw_append h)
  simp only [raw, List.length_append, List.length_cons] at hl
  omega

end Field
end GCode
