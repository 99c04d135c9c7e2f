import GCode.Proofs.Comment.Form
import GCode.Proofs.Guarded.Command

/-!
# Where the comment at the head of a line is cut off

The first byte of a line tells whether a comment starts there, and of which kind it can be; the
first closing parenthesis tells where a comment in parentheses ends. So a comment is known by its
own text: read alone it is the same comment, and a closed one stays the same in front of any text.

* `Comment.isSome_iff_opening_byte`: a comment starts with the byte of a semicolon or a parenthesis.
* `Comment.raw_append_skip`: nothing of a line gets lost.
* `Comment.read?_unclosed`, `Comment.exists_read?_enclosed`: the two ways in which a comment in
  parentheses ends.
* `Comment.read?_raw`, `Comment.read?_raw_append_of_enclosed`: a comment is read again from its
  text.
* `Comment.cut_of_line`: all of it together, for every line.
-/

namespace GCode.Comment

open Text Guarded

variable {line text tail : List Char} {comment : Comment}

/-! ## The first byte -/

/-- **A comment is found exactly if the first byte of the line is that of an opening.** -/
theorem isSome_iff_opening_byte :
    (read? line).isSome ↔
      (toBytes line).head? = some ';'.toUInt8 ∨ (toBytes line).head? = some '('.toUInt8 := by
  have hsemicolon : (toBytes line).head? = some ';'.toUInt8 ↔ line.head? = some ';' :=
    head?_toBytes_eq_some_iff (by decide)
  have hparenthesis : (toBytes line).head? = some '('.toUInt8 ↔ line.head? = some '(' :=
    head?_toBytes_eq_some_iff (by decide)
  rw [hsemicolon, hparenthesis, Option.isSome_iff_ne_none, Ne, read?_eq_none_iff]
  cases line with
  | nil => simp
  | cons c line => simp [isOpening, ← not_or]

/-! ## Where a comment ends -/

theorem raw_append_skip (line : List Char) :
    ((read? line).elim [] fun read => read.1.raw) ++ skip line = line := by
  rw [skip]
  cases hread : read? line with
  | none => rfl
  | some read =>
      obtain ⟨-, -, hline⟩ := of_read? hread
      exact hline

theorem read?_unclosed (h : ')' ∉ text) : read? ('(' :: text) = some (⟨.unclosed, text⟩, []) :=
  read?_eq_some_iff.2 ⟨fun _ => h, fun _ => rfl, List.append_nil _⟩

theorem exists_read?_enclosed (h : ')' ∈ text) :
    ∃ content tail, ')' ∉ content ∧ '(' :: text = '(' :: content ++ ')' :: tail ∧
      read? ('(' :: text) = some (⟨.enclosed, content⟩, tail) := by
  obtain ⟨content, tail, rfl, hcontent⟩ := List.eq_append_cons_of_mem h
  refine ⟨content, tail, hcontent, rfl, ?_⟩
  refine read?_eq_some_iff.2 ⟨fun _ => hcontent, fun hk => absurd rfl hk, ?_⟩
  simp [raw]

/-! ## A comment and its own text -/

theorem content_eq_tail_raw (h : comment.kind ≠ .enclosed) :
    comment.content = comment.raw.tail := by
  obtain ⟨kind, content⟩ := comment
  cases kind with
  | toEnd => rfl
  | enclosed => exact absurd rfl h
  | unclosed => rfl

/-- **A comment that has been read is read again from its own text.** -/
theorem read?_raw (h : read? line = some (comment, tail)) :
    read? comment.raw = some (comment, []) := by
  have hread := read?_raw_append (of_read? h).1 (fun _ => rfl : comment.Ends [])
  rwa [List.append_nil] at hread

theorem read?_raw_append_of_enclosed (h : read? line = some (comment, tail))
    (hk : comment.kind = .enclosed) (rest : List Char) :
    read? (comment.raw ++ rest) = some (comment, rest) :=
  read?_raw_append (of_read? h).1 fun hne => absurd hk hne

/-! ## Every line -/

/-- **The comment at the head of a line**: whether there is one is told by the first byte, where it
ends by its kind, and what it is by its own text, whatever follows. On the bytes of the line the
same cut is made at a position, and the content is cut out of the comment between two positions. -/
theorem cut_of_line (line : List Char) :
    ((read? line).isSome ↔
      (toBytes line).head? = some ';'.toUInt8 ∨ (toBytes line).head? = some '('.toUInt8) ∧
    ((read? line).elim [] fun read => read.1.raw) ++ skip line = line ∧
    (∀ text, line = ';' :: text → read? line = some (⟨.toEnd, text⟩, [])) ∧
    (∀ text, line = '(' :: text → ')' ∉ text → read? line = some (⟨.unclosed, text⟩, [])) ∧
    (∀ text, line = '(' :: text → ')' ∈ text →
      ∃ content tail, ')' ∉ content ∧ line = '(' :: content ++ ')' :: tail ∧
        read? line = some (⟨.enclosed, content⟩, tail)) ∧
    (∀ comment tail, read? line = some (comment, tail) →
      (comment.kind ≠ .enclosed → comment.content = comment.raw.tail) ∧
      (comment.kind = .enclosed → comment.raw = '(' :: comment.content ++ [')']) ∧
      read? comment.raw = some (comment, []) ∧
      (comment.kind = .enclosed → ∀ rest, read? (comment.raw ++ rest) = some (comment, rest)) ∧
      (StoredComment.ofComment comment).content = .ok (toBytes comment.content)) ∧
    readComment (toBytes line) = .ok ((read? line).map storedComment) := by
  refine ⟨isSome_iff_opening_byte, raw_append_skip line, ?_, ?_, ?_, ?_, readComment_eq line⟩
  · rintro text rfl
    rfl
  · rintro text rfl
    exact read?_unclosed
  · rintro text rfl
    exact exists_read?_enclosed
  · intro comment tail hread
    refine ⟨content_eq_tail_raw, ?_, read?_raw hread, read?_raw_append_of_enclosed hread,
      StoredComment.content_ofComment comment⟩
    intro hk
    rw [raw, hk]

/-- A comment with the other openings and a character of two bytes inside, and another parenthesis
that closes behind it. -/
def nested : List Char := "(\u00b5 ; (x) G1 (\u00e9)".toList

theorem cut_of_line_nested :
    (read? nested).isSome ∧
      (∃ content tail, ')' ∉ content ∧ nested = '(' :: content ++ ')' :: tail ∧
        read? nested = some (⟨.enclosed, content⟩, tail)) ∧
      (StoredComment.ofComment ⟨.enclosed, "\u00b5 ; (x".toList⟩).content =
        .ok (toBytes "\u00b5 ; (x".toList) ∧
      read? "(\u00b5 ; (x)\u00e9)".toList =
        some (⟨.enclosed, "\u00b5 ; (x".toList⟩, "\u00e9)".toList) := by
  obtain ⟨hsome, -, -, -, henclosed, hread, -⟩ := cut_of_line nested
  have hfound : read? nested = some (⟨.enclosed, "\u00b5 ; (x".toList⟩, " G1 (\u00e9)".toList) := by
    decide
  obtain ⟨-, -, -, hrest, hcontent⟩ := hread _ _ hfound
  exact ⟨hsome.2 (.inr (by decide)), henclosed _ rfl (by decide), hcontent,
    hrest rfl "\u00e9)".toList⟩

end GCode.Comment
