import GCode.Proofs.Lines.Decoding

/-!
# A source that is taken apart

Lines are read only as far as needed, so what a source has not read can be handed on at any time. It
is the input without the lines that have been given, each with its terminator; only of a `\r\n` that
ended the last one of them is the `\n` still there. Whoever goes on with these bytes finds the lines
that are left, once that `\n` is passed over.

* `LineSource.after_of_lines`: where a source stands after a number of lines.
* `LineSource.after_of_end`: after its last line, nothing is left.
* `LineSource.next_after_eq`, `LineSource.readAll_eq_linesOf`: the lines that are left are those of
  what is ahead, read anew.
* `LineSource.unread_after_lines`: all of it together, for every input and number of calls.
-/

namespace GCode

/-! ## The bytes of lines -/

namespace EndedLine

def whole (line : EndedLine) : List UInt8 := line.bytes ++ line.terminator.bytes

/-- A line up to the byte at which it ends. -/
def ended (line : EndedLine) : List UInt8 := line.bytes ++ [line.terminator.first]

/-- The bytes that are read for a number of lines. Behind the last of them the second byte of a
terminator is not read yet. -/
def taken (lines : List EndedLine) : List UInt8 :=
  lines.dropLast.flatMap whole ++ lines.getLast?.elim [] ended

theorem taken_concat (lines : List EndedLine) (line : EndedLine) :
    taken (lines ++ [line]) = lines.flatMap whole ++ line.ended := by
  simp [taken]

theorem whole_append (line : EndedLine) (rest : List UInt8) :
    line.whole ++ rest = line.ended ++ (line.terminator.second ++ rest) := by
  simp [whole, ended, line.terminator.bytes_eq]

end EndedLine

variable {bytes : List UInt8} {split : Split}

theorem Splits.bytes_eq (h : Splits bytes split) :
    bytes = split.lines.flatMap EndedLine.whole ++ split.last := by
  induction h with
  | last => rfl
  | line _ _ _ ih =>
      rw [List.flatMap_cons, EndedLine.whole, List.append_assoc, List.append_assoc, ← ih]

namespace LineSource

variable {source : LineSource} {k : Nat} {line : EndedLine}

/-! ## After a number of lines -/

theorem after_add (source : LineSource) (k j : Nat) :
    source.after (k + j) = (source.after k).after j := by
  induction k generalizing source with
  | zero => rw [Nat.zero_add, after]
  | succ k ih => rw [Nat.succ_add, after, after, ih]

/-- **After a number of lines a source stands behind the last of them.** -/
theorem after_of_lines (h : Splits bytes split) (hf : source.isFinished = false)
    (ha : source.ahead = bytes) (hk : split.lines[k]? = some line) :
    ∃ rest, source.after (k + 1) = behind line.terminator rest ∧
      bytes = (split.lines.take k).flatMap EndedLine.whole ++ (line.whole ++ rest) := by
  induction h generalizing source k with
  | last => cases hk
  | @line bytes rest terminator split hp hl _ ih =>
      have hn := next_of_line hf hp ha
      cases k with
      | zero =>
          obtain rfl : ⟨bytes, terminator⟩ = line := Option.some.inj hk
          refine ⟨rest, ?_, ?_⟩
          · rw [after, hn, after]
          · exact (List.append_assoc _ _ _).symm
      | succ k =>
          obtain ⟨later, hafter, hrest⟩ := ih rfl (ahead_behind hl) hk
          refine ⟨later, ?_, ?_⟩
          · rw [after, hn, hafter]
          · rw [List.take_succ_cons, List.flatMap_cons, EndedLine.whole, List.append_assoc,
              List.append_assoc, ← hrest]

/-- **After the last line nothing is left.** -/
theorem after_of_end (h : Splits bytes split) (hf : source.isFinished = false)
    (ha : source.ahead = bytes) (hk : split.lines.length < k) :
    (source.after k).isFinished = true ∧ (source.after k).unread = [] := by
  induction h generalizing source k with
  | last hp =>
      subst ha
      obtain ⟨later, hn, hfinished, hunread⟩ := next_of_last hf hp
      cases k with
      | zero => exact absurd hk (Nat.not_lt_zero _)
      | succ k =>
          rw [after, hn, after_of_isFinished hfinished]
          exact ⟨hfinished, hunread⟩
  | line hp hl _ ih =>
      cases k with
      | zero => exact absurd hk (Nat.not_lt_zero _)
      | succ k =>
          rw [after, next_of_line hf hp ha]
          exact ih rfl (ahead_behind hl) (Nat.lt_of_succ_lt_succ hk)

/-! ## Going on with what is left -/

theorem next_after_eq (hf : source.isFinished = false) (j : Nat) :
    (source.after j).next.1 = ((ofBytes source.ahead).after j).next.1 := by
  obtain ⟨split, hs⟩ := exists_splits source.ahead
  rw [next_after hs hf rfl, next_after hs rfl (ahead_ofBytes _)]

theorem readAll_eq_linesOf (hf : source.isFinished = false) :
    source.readAll = linesOf source.ahead := by
  obtain ⟨split, hs⟩ := exists_splits source.ahead
  rw [readAll_eq hs hf rfl, linesOf_eq hs]

/-- What is left to read behind bytes that have been read: a line feed behind a carriage return is
passed over. -/
def resumed (consumed rest : List UInt8) : List UInt8 :=
  if consumed.getLast? = some carriageReturn ∧ rest.head? = some lineFeed then rest.tail else rest

theorem ahead_behind_eq_resumed (front rest : List UInt8) (terminator : Terminator) :
    (behind terminator rest).ahead =
      resumed (front ++ [terminator.first]) (behind terminator rest).unread := by
  have hne : lineFeed ≠ carriageReturn := by decide
  cases terminator <;> simp [behind, ahead, resumed, Terminator.first, hne]

/-- **Where the source of an input stands after a number of lines**, as long as there are so many. -/
theorem after_of_le (h : Splits bytes split) (hk : k ≤ split.lines.length) :
    ((ofBytes bytes).after k).isFinished = false ∧
      bytes = EndedLine.taken (split.lines.take k) ++ ((ofBytes bytes).after k).unread ∧
      ((ofBytes bytes).after k).ahead =
        resumed (EndedLine.taken (split.lines.take k)) ((ofBytes bytes).after k).unread := by
  cases k with
  | zero => exact ⟨rfl, rfl, ahead_ofBytes bytes⟩
  | succ k =>
      obtain ⟨line, hline⟩ : ∃ line, split.lines[k]? = some line :=
        ⟨_, List.getElem?_eq_getElem hk⟩
      obtain ⟨rest, hafter, hbytes⟩ := after_of_lines h rfl (ahead_ofBytes bytes) hline
      have htake : split.lines.take (k + 1) = split.lines.take k ++ [line] := by
        rw [List.take_add_one, hline]
        rfl
      rw [hafter, htake, EndedLine.taken_concat]
      refine ⟨rfl, ?_, ?_⟩
      · rw [List.append_assoc]
        rw [line.whole_append] at hbytes
        exact hbytes
      · rw [EndedLine.ended, ← List.append_assoc]
        exact ahead_behind_eq_resumed _ rest line.terminator

/-- **What a source has not read, after any number of calls.** As long as there are lines left, it is
the input without the lines that have been given, each with its terminator, but of the last one only
the byte that ended it. The lines that are left are those of these bytes, without a line feed in
front if the byte before them was a carriage return. After the last line, which nothing ends but the
input, nothing is left. -/
theorem unread_after_lines (bytes : List UInt8) :
    ∃ split, Splits bytes split ∧ (∀ other, Splits bytes other → other = split) ∧
      bytes = split.lines.flatMap EndedLine.whole ++ split.last ∧
      (∀ k ≤ split.lines.length, ∃ consumed unread,
        ((ofBytes bytes).after k).isFinished = false ∧ ((ofBytes bytes).after k).unread = unread ∧
        bytes = consumed ++ unread ∧ consumed = EndedLine.taken (split.lines.take k) ∧
        (∀ j, ((ofBytes bytes).after (k + j)).next.1 =
          ((ofBytes (resumed consumed unread)).after j).next.1) ∧
        ((ofBytes bytes).after k).readAll = linesOf (resumed consumed unread)) ∧
      ∀ k, split.lines.length < k →
        ((ofBytes bytes).after k).isFinished = true ∧ ((ofBytes bytes).after k).unread = [] := by
  obtain ⟨split, hs⟩ := exists_splits bytes
  refine ⟨split, hs, fun other hother => splits_unique hother hs, hs.bytes_eq, ?_,
    fun k hk => after_of_end hs rfl (ahead_ofBytes bytes) hk⟩
  intro k hk
  obtain ⟨hf, hbytes, hahead⟩ := after_of_le hs hk
  refine ⟨_, _, hf, rfl, hbytes, rfl, ?_, ?_⟩
  · intro j
    rw [after_add, next_after_eq hf, hahead]
  · rw [readAll_eq_linesOf hf, hahead]

/-- Behind a line that `\r\n` ends, the `\n` is left and has to be passed over. -/
example : (ofBytes [71, 13, 10, 88]).after 1 = ⟨[10, 88], true, false⟩ := by decide

end LineSource
end GCode
