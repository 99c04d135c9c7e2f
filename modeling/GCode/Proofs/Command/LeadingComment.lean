import GCode.Proofs.Command.Grammar

/-!
# A comment before a command

A line is read from its opening on, and one comment in parentheses before it makes no difference to
that, with blanks on both sides and whatever is written in it. Only one comment is passed over: where
another one follows, or where the comment goes to the end of the line, there is no command.

* `Command.opening_append_of_isRun`, `Command.opening_raw_append`, `Command.opening_of_stops`: the
  opening of a line behind blanks, behind a comment, and without one.
* `Command.read?_congr`: lines with one opening are read alike.
* `Command.read?_leading_comment`: what is read behind a comment, and where there is no command.
-/

namespace GCode

open Text

theorem Field.read?_eq_none_of_opening {settings : Settings} {text : List Char}
    (h : ¬Stops Comment.isOpening text) : read? settings text = none := by
  cases text with
  | nil => rfl
  | cons c text =>
      have hc : Comment.isOpening c = true := by simpa using h
      cases hw : isWord c with
      | false => exact read?_cons_of_noWord (by simp [hw])
      | true =>
          rw [Comment.isOpening_eq_false_of_isWord c hw] at hc
          cases hc

namespace Command

variable {settings : Settings} {line other gap tail : List Char} {comment : Comment}

/-! ## The opening of a line -/

theorem opening_append_of_isRun (hg : IsRun isBlank gap) (line : List Char) :
    opening (gap ++ line) = opening line := by
  rw [opening, opening, dropBlanks_append_of_isRun hg]

theorem opening_of_stops (h : Stops Comment.isOpening (dropBlanks line)) :
    opening line = dropBlanks line := by
  rw [opening, Comment.skip_of_stops h, dropBlanks_eq_self (stops_dropBlanks line)]

theorem opening_raw_append (hg : IsRun isBlank gap) (hw : comment.WellFormed)
    (he : comment.Ends tail) : opening (gap ++ (comment.raw ++ tail)) = dropBlanks tail := by
  have hstops : Stops isBlank (comment.raw ++ tail) := by
    obtain ⟨kind, content⟩ := comment
    cases kind <;> exact stops_cons.2 (by decide)
  rw [opening, dropBlanks_append hg hstops, Comment.skip_of_read? (Comment.read?_raw_append hw he)]

/-! ## What is read behind a comment -/

/-- **Lines with one opening are read alike.** -/
theorem read?_congr (h : opening line = opening other) :
    read? settings line = read? settings other := by
  simp only [opening] at h
  simp only [read?, h]

/-- Where a comment stands at the opening of a line, one has been passed over before it. -/
theorem read?_eq_none_of_opening (h : ¬Stops Comment.isOpening (opening line)) :
    read? settings line = none :=
  read?_of_noField (Field.read?_eq_none_of_opening h)

theorem read?_append_raw (hg : IsRun isBlank gap) (hw : comment.WellFormed) :
    read? settings (gap ++ comment.raw) = none := by
  have hnil : opening (gap ++ (comment.raw ++ [])) = [] :=
    opening_raw_append hg hw fun _ => rfl
  rw [List.append_nil] at hnil
  refine read?_of_noField ?_
  rw [hnil]
  rfl

/-- **One comment before a command makes no difference.** Blanks before a line change nothing of what
is read from it. Neither does a comment in parentheses with blanks around it, unless another comment
follows: then there is no command. There is none either on a line that starts with a semicolon, or
with a parenthesis that is not closed. -/
theorem read?_leading_comment (settings : Settings) (line : List Char)
    {before content between : List Char} (hb : IsRun isBlank before) (hc : ')' ∉ content)
    (hw : IsRun isBlank between) :
    read? settings (before ++ line) = read? settings line ∧
      (Stops Comment.isOpening (dropBlanks line) →
        read? settings (before ++ '(' :: (content ++ ')' :: (between ++ line))) =
          read? settings line) ∧
      (¬Stops Comment.isOpening (dropBlanks line) →
        read? settings (before ++ '(' :: (content ++ ')' :: (between ++ line))) = none) ∧
      (∀ text, read? settings (before ++ ';' :: text) = none) ∧
      read? settings (before ++ '(' :: content) = none := by
  have hcomment : (Comment.mk .enclosed content).WellFormed := fun _ => hc
  have hends : (Comment.mk .enclosed content).Ends (between ++ line) := fun hk => absurd rfl hk
  -- behind the comment, reading goes on where the line itself would have a comment or its code
  have henclosed : opening (before ++ '(' :: (content ++ ')' :: (between ++ line))) =
      dropBlanks line := by
    rw [← dropBlanks_append_of_isRun hw, ← opening_raw_append hb hcomment hends]
    simp [Comment.raw]
  refine ⟨read?_congr (opening_append_of_isRun hb line), ?_, ?_, ?_, ?_⟩
  · intro hs
    exact read?_congr (henclosed.trans (opening_of_stops hs).symm)
  · intro hs
    refine read?_eq_none_of_opening ?_
    rwa [henclosed]
  · intro text
    have htext : (Comment.mk .toEnd text).WellFormed := fun hk => absurd rfl hk
    exact read?_append_raw hb htext
  · have hopen : (Comment.mk .unclosed content).WellFormed := fun _ => hc
    exact read?_append_raw hb hopen

/-- A comment with the openings of other comments in it, before a command and before a comment. -/
theorem read?_leading_comment_nested :
    IsRun isBlank " \t".toList ∧ ')' ∉ "G1 ;(\u00e9\"".toList ∧ IsRun isBlank "\t".toList ∧
      Stops Comment.isOpening (dropBlanks " m3.7x1".toList) ∧
      ¬Stops Comment.isOpening (dropBlanks " (b) m3.7x1".toList) ∧
      read? default " m3.7x1".toList = some ⟨Code.pack 'M' 3 7, "x1".toList, default⟩ ∧
      read? default " \t(G1 ;(\u00e9\")\t m3.7x1".toList =
        some ⟨Code.pack 'M' 3 7, "x1".toList, default⟩ ∧
      read? default " \t(G1 ;(\u00e9\")\t (b) m3.7x1".toList = none := by
  have hb : IsRun isBlank " \t".toList :=
    isRun_cons.2 ⟨by decide, isRun_cons.2 ⟨by decide, isRun_nil⟩⟩
  have hc : ')' ∉ "G1 ;(\u00e9\"".toList := by decide
  have hw : IsRun isBlank "\t".toList := isRun_cons.2 ⟨by decide, isRun_nil⟩
  have hs : Stops Comment.isOpening (dropBlanks " m3.7x1".toList) := stops_cons.2 (by decide)
  have hn : ¬Stops Comment.isOpening (dropBlanks " (b) m3.7x1".toList) :=
    fun h => absurd (stops_cons.1 h) (by decide)
  have hread : read? default " m3.7x1".toList =
      some ⟨Code.pack 'M' 3 7, "x1".toList, default⟩ := by decide
  have hline : " \t(G1 ;(\u00e9\")\t m3.7x1".toList = " \t".toList ++
      '(' :: ("G1 ;(\u00e9\"".toList ++ ')' :: ("\t".toList ++ " m3.7x1".toList)) := by decide
  have hnested : " \t(G1 ;(\u00e9\")\t (b) m3.7x1".toList = " \t".toList ++
      '(' :: ("G1 ;(\u00e9\"".toList ++ ')' :: ("\t".toList ++ " (b) m3.7x1".toList)) := by decide
  obtain ⟨-, hagain, -⟩ := read?_leading_comment default " m3.7x1".toList hb hc hw
  obtain ⟨-, -, hnone, -⟩ := read?_leading_comment default " (b) m3.7x1".toList hb hc hw
  refine ⟨hb, hc, hw, hs, hn, hread, ?_, ?_⟩
  · rw [hline, hagain hs, hread]
  · rw [hnested, hnone hn]

end Command
end GCode
