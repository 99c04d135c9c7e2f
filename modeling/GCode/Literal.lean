import GCode.Text.Bytes

/-! # Quoted texts

A quoted text starts after a double quote and ends before the next one, or at the end of the line.
Two quotes in a row stand for one that belongs to the text. If apostrophes are escapes, an
apostrophe stands for the lower-case form of the character after it, which may be a quote or an
apostrophe; at the end of the line it stands for nothing.

`Literal.read` finds where a quoted text ends and counts the bytes of what it stands for, but does
not decode it. A literal with the text after it is the text it was read from (`text_append`).
-/

namespace GCode

def quote : Char := '"'

/-- The character that can lower-case the next one. -/
def apostrophe : Char := Char.ofNat 39

/-- A quoted text as it stands on the line, from after the opening quote on. -/
structure Literal where
  /-- The text between the quotes. -/
  body : List Char
  /-- The number of bytes of what the body stands for, before any lower-casing. -/
  length : Nat
  isClosed : Bool
  isEscaped : Bool
  deriving DecidableEq, Repr

namespace Literal

def text (literal : Literal) : List Char :=
  literal.body ++ if literal.isClosed then [quote] else []

def unfinished : Literal := ⟨[], 0, false, false⟩

def finished : Literal := ⟨[], 0, true, false⟩

/-- The literal of an apostrophe that has nothing left to lower-case. -/
def dangling : Literal := ⟨[apostrophe], 0, false, true⟩

def cons (c : Char) (literal : Literal) : Literal :=
  { literal with body := c :: literal.body, length := c.utf8Size + literal.length }

/-- A literal with an escape in front: a mark, and the character that it makes part of the text. -/
def consEscape (mark c : Char) (literal : Literal) : Literal :=
  { literal with
    body := mark :: c :: literal.body
    length := c.utf8Size + literal.length
    isEscaped := true }

/-- The literal at the head of a text that follows an opening quote, with the text after it. -/
def read (apostropheEscape : Bool) : List Char → Literal × List Char
  | [] => (unfinished, [])
  | [c] =>
      if c = apostrophe ∧ apostropheEscape then (dangling, [])
      else if c = quote then (finished, [])
      else (cons c unfinished, [])
  | c :: d :: text =>
      if (c = apostrophe ∧ apostropheEscape) ∨ (c = quote ∧ d = quote) then
        Prod.map (consEscape c d) id (read apostropheEscape text)
      else if c = quote then (finished, d :: text)
      else Prod.map (cons c) id (read apostropheEscape (d :: text))

theorem text_cons (c : Char) (literal : Literal) : (cons c literal).text = c :: literal.text :=
  rfl

theorem text_consEscape (mark c : Char) (literal : Literal) :
    (consEscape mark c literal).text = mark :: c :: literal.text :=
  rfl

/-- **A literal and the text after it are the text it was read from.** -/
theorem text_append (apostropheEscape : Bool) (line : List Char) :
    (read apostropheEscape line).1.text ++ (read apostropheEscape line).2 = line := by
  fun_induction read apostropheEscape line with
  | case1 => rfl
  | case2 c h => simp [Literal.text, dangling, h.1]
  | case3 => rfl
  | case4 => rfl
  | case5 c d text h ih =>
      simp only [Prod.map_fst, Prod.map_snd, id, text_consEscape, List.cons_append, ih]
  | case6 => rfl
  | case7 c d text _ _ ih =>
      simp only [Prod.map_fst, Prod.map_snd, id, text_cons, List.cons_append, ih]

end Literal
end GCode
