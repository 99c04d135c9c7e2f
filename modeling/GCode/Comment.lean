/-! # Comments

A comment starts with a semicolon and takes the rest of the line, or with a parenthesis and goes to
the next closing one; without a closing parenthesis it takes the rest of the line too. Comments do
not nest.
-/

namespace GCode

inductive CommentKind
  /-- After a semicolon. -/
  | toEnd
  /-- Between parentheses. -/
  | enclosed
  /-- After a parenthesis that is never closed. -/
  | unclosed
  deriving DecidableEq, Repr

/-- A comment at the head of a line. -/
structure Comment where
  kind : CommentKind
  /-- The text between the delimiters. -/
  content : List Char
  deriving DecidableEq, Repr

namespace Comment

def raw (comment : Comment) : List Char :=
  match comment.kind with
  | .toEnd => ';' :: comment.content
  | .enclosed => '(' :: comment.content ++ [')']
  | .unclosed => '(' :: comment.content

def read? : List Char → Option (Comment × List Char)
  | ';' :: text => some (⟨.toEnd, text⟩, [])
  | '(' :: text =>
      match text.dropWhile (· ≠ ')') with
      | _ :: tail => some (⟨.enclosed, text.takeWhile (· ≠ ')')⟩, tail)
      | [] => some (⟨.unclosed, text⟩, [])
  | _ => none

/-- A line without the comment at its head, if there is one. -/
def skip (line : List Char) : List Char :=
  match read? line with
  | some (_, tail) => tail
  | none => line

theorem read?_eq_none {line : List Char} (hsemicolon : line.head? ≠ some ';')
    (hparenthesis : line.head? ≠ some '(') : read? line = none := by
  unfold read?
  split
  next => exact absurd rfl hsemicolon
  next => exact absurd rfl hparenthesis
  next => rfl

end Comment
end GCode
