import GCode.Comment
import GCode.Proofs.Text.Runs

/-!
# The form of a comment and where it ends

A comment in parentheses goes to the first one that closes, so none stands inside of it, and any text
may follow. Every other comment goes to the end of its line.

* `Comment.read?_eq_some_iff`: reading gives the comment that is well formed, ends before the tail
  and gives back the line together with it.
* `Comment.read?_eq_none_iff`: a line without a comment at its head starts with neither opening.
* `Comment.skip_of_read?`, `Comment.skip_of_stops`: what is left of a line in both cases.
-/

namespace GCode.Comment

open Text

variable {line tail : List Char} {comment : Comment}

def isOpening (c : Char) : Bool := c = ';' || c = '('

/-- A comment that a parenthesis opens has none inside that would close it. -/
def WellFormed (comment : Comment) : Prop := comment.kind ≠ .toEnd → ')' ∉ comment.content

/-- Only behind a comment that is closed does the line go on. -/
def Ends (comment : Comment) (tail : List Char) : Prop := comment.kind ≠ .enclosed → tail = []

/-! ## Up to the first closing parenthesis -/

theorem takeWhile_dropWhile_closing {content : List Char} (h : ')' ∉ content) (tail : List Char) :
    (content ++ ')' :: tail).takeWhile (· ≠ ')') = content ∧
      (content ++ ')' :: tail).dropWhile (· ≠ ')') = ')' :: tail := by
  have hrun : IsRun (· ≠ ')') content := isRun_ne_iff.2 h
  have hstops : Stops (· ≠ ')') (')' :: tail) := stops_cons.2 (by decide)
  exact ⟨takeWhile_append hrun hstops, dropWhile_append hrun hstops⟩

/-! ## Reading a comment -/

theorem read?_raw_append (hw : comment.WellFormed) (he : comment.Ends tail) :
    read? (comment.raw ++ tail) = some (comment, tail) := by
  obtain ⟨kind, content⟩ := comment
  cases kind with
  | toEnd =>
      obtain rfl : tail = [] := he nofun
      simp [raw, read?]
  | enclosed =>
      obtain ⟨htake, hdrop⟩ := takeWhile_dropWhile_closing (hw nofun) tail
      have hraw : raw ⟨.enclosed, content⟩ ++ tail = '(' :: (content ++ ')' :: tail) := by
        simp [raw]
      rw [hraw, read?, hdrop, htake]
  | unclosed =>
      obtain rfl : tail = [] := he nofun
      have hdrop : content.dropWhile (· ≠ ')') = [] := by
        have hrun : IsRun (· ≠ ')') content := isRun_ne_iff.2 (hw nofun)
        have happend := dropWhile_append hrun stops_nil
        rwa [List.append_nil] at happend
      rw [List.append_nil, raw, read?, hdrop]

theorem of_read? (h : read? line = some (comment, tail)) :
    comment.WellFormed ∧ comment.Ends tail ∧ comment.raw ++ tail = line := by
  unfold read? at h
  split at h
  next text =>
    cases h
    exact ⟨fun hk => absurd rfl hk, fun _ => rfl, List.append_nil _⟩
  next text =>
    have hsplit := List.takeWhile_append_dropWhile (p := (· ≠ ')')) (l := text)
    have hrun : IsRun (· ≠ ')') (text.takeWhile (· ≠ ')')) := IsRun.takeWhile text
    have hstops : Stops (· ≠ ')') (text.dropWhile (· ≠ ')')) := Stops.dropWhile text
    split at h
    next c rest hd =>
      cases h
      rw [hd] at hsplit hstops
      obtain rfl : c = ')' := by simpa using stops_cons.1 hstops
      refine ⟨fun _ => isRun_ne_iff.1 hrun, fun hk => absurd rfl hk, ?_⟩
      simpa [raw] using hsplit
    next hd =>
      cases h
      rw [hd, List.append_nil] at hsplit
      rw [hsplit] at hrun
      exact ⟨fun _ => isRun_ne_iff.1 hrun, fun _ => rfl, List.append_nil _⟩
  next => cases h

/-- **The comment at the head of a line is the one that is well formed and ends before the tail.** -/
theorem read?_eq_some_iff :
    read? line = some (comment, tail) ↔
      comment.WellFormed ∧ comment.Ends tail ∧ comment.raw ++ tail = line := by
  constructor
  · exact of_read?
  · rintro ⟨hw, he, rfl⟩
    exact read?_raw_append hw he

/-- **A line has no comment at its head exactly if nothing opens one there.** -/
theorem read?_eq_none_iff : read? line = none ↔ Stops isOpening line := by
  constructor
  · intro h c hc
    obtain ⟨rest, rfl⟩ := List.head?_eq_some_iff.1 hc
    cases ho : isOpening c with
    | false => rfl
    | true =>
        simp only [isOpening, Bool.or_eq_true, decide_eq_true_eq] at ho
        rcases ho with rfl | rfl
        · cases h
        · rw [read?] at h
          split at h <;> cases h
  · intro h
    refine read?_eq_none ?_ ?_
    · intro hc
      exact absurd (h _ hc) (by decide)
    · intro hc
      exact absurd (h _ hc) (by decide)

/-! ## What is left of a line -/

theorem skip_of_read? (h : read? line = some (comment, tail)) : skip line = tail := by
  rw [skip, h]

theorem skip_of_stops (h : Stops isOpening line) : skip line = line := by
  rw [skip, read?_eq_none_iff.2 h]

end GCode.Comment
