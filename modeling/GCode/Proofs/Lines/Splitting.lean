import GCode.Lines
import GCode.Proofs.Text.Bytes

/-!
# Where the lines of an input end

An input is split at its terminators `\r\n`, `\r` and `\n`: from the left, at the first one there is,
and of those that start there at the longest. `Splits` says this of the bytes alone.

A source that has read a `\r` does not know yet whether a `\n` follows. What it still has to give
are the lines of `LineSource.ahead`, the unread bytes without a `\n` that belongs to the last
terminator.

* `LineSource.next_of_line`, `LineSource.next_of_last`: one call takes one line of what is ahead.
* `LineSource.next_after`: the calls give the pieces of the split one after another, and then nothing
  for ever.
* `LineSource.lines_are_pieces`: all of it together, with the one split that an input has.
-/

namespace GCode

inductive Terminator
  | lineFeed
  | carriageReturn
  | both
  deriving DecidableEq, Repr

namespace Terminator

def bytes : Terminator → List UInt8
  | .lineFeed => [LineSource.lineFeed]
  | .carriageReturn => [LineSource.carriageReturn]
  | .both => [LineSource.carriageReturn, LineSource.lineFeed]

/-- The byte of a terminator at which a line ends. -/
def first : Terminator → UInt8
  | .lineFeed => LineSource.lineFeed
  | .carriageReturn => LineSource.carriageReturn
  | .both => LineSource.carriageReturn

/-- What a terminator has behind that byte. -/
def second : Terminator → List UInt8
  | .lineFeed => []
  | .carriageReturn => []
  | .both => [LineSource.lineFeed]

theorem bytes_eq (terminator : Terminator) :
    terminator.bytes = terminator.first :: terminator.second := by
  cases terminator <;> rfl

/-- No terminator that starts at the same place is longer, whatever of the rest it takes. -/
def IsLongest (terminator : Terminator) (rest : List UInt8) : Prop :=
  ∀ other : Terminator, other.bytes <+: terminator.bytes ++ rest →
    other.bytes.length ≤ terminator.bytes.length

theorem bytes_inj {terminator other : Terminator} (h : terminator.bytes = other.bytes) :
    terminator = other := by
  revert h
  cases terminator <;> cases other <;> decide

end Terminator

structure EndedLine where
  bytes : List UInt8
  terminator : Terminator
  deriving DecidableEq, Repr

/-- The lines of an input that a terminator ends, and the last one, which the end of the input
ends. -/
structure Split where
  lines : List EndedLine
  last : List UInt8
  deriving DecidableEq, Repr

def Split.pieces (split : Split) : List (List UInt8) :=
  split.lines.map EndedLine.bytes ++ [split.last]

def IsPlain (bytes : List UInt8) : Prop :=
  ∀ byte ∈ bytes, byte ≠ LineSource.lineFeed ∧ byte ≠ LineSource.carriageReturn

/-- The leftmost and longest split of an input at its terminators. -/
inductive Splits : List UInt8 → Split → Prop
  | last {bytes : List UInt8} : IsPlain bytes → Splits bytes ⟨[], bytes⟩
  | line {bytes rest : List UInt8} {terminator : Terminator} {split : Split} :
      IsPlain bytes → terminator.IsLongest rest → Splits rest split →
      Splits (bytes ++ (terminator.bytes ++ rest))
        ⟨⟨bytes, terminator⟩ :: split.lines, split.last⟩

theorem isPlain_nil : IsPlain [] := by
  intro byte hm
  cases hm

theorem isPlain_cons {byte : UInt8} {bytes : List UInt8} :
    IsPlain (byte :: bytes) ↔
      (byte ≠ LineSource.lineFeed ∧ byte ≠ LineSource.carriageReturn) ∧ IsPlain bytes := by
  simp [IsPlain]

namespace Terminator

theorem IsLongest.head?_ne {rest : List UInt8} (h : carriageReturn.IsLongest rest) :
    rest.head? ≠ some LineSource.lineFeed := by
  intro hh
  obtain ⟨rest, rfl⟩ := List.head?_eq_some_iff.1 hh
  have hle := h .both ⟨rest, rfl⟩
  exact absurd hle (by decide)

theorem isLongest_lineFeed (rest : List UInt8) : lineFeed.IsLongest rest := by
  intro other hp
  cases other with
  | lineFeed => exact Nat.le_refl 1
  | carriageReturn => exact Nat.le_refl 1
  | both =>
      have hhead := (List.cons_prefix_cons.1 hp).1
      exact absurd hhead (by decide)

theorem isLongest_both (rest : List UInt8) : both.IsLongest rest := by
  intro other _
  cases other <;> decide

theorem isLongest_carriageReturn {rest : List UInt8}
    (h : rest.head? ≠ some LineSource.lineFeed) : carriageReturn.IsLongest rest := by
  intro other hp
  cases other with
  | lineFeed => exact Nat.le_refl 1
  | carriageReturn => exact Nat.le_refl 1
  | both =>
      have htail := (List.cons_prefix_cons.1 hp).2
      cases rest with
      | nil => exact absurd htail (by simp)
      | cons byte rest =>
          have hhead := (List.cons_prefix_cons.1 htail).1
          exact absurd (congrArg some hhead.symm) h

end Terminator

namespace LineSource

variable {source : LineSource} {bytes rest : List UInt8} {terminator : Terminator} {split : Split}

/-! ## What is ahead -/

/-- The bytes of the lines that a source has not given yet. -/
def ahead (source : LineSource) : List UInt8 :=
  if source.skipsLineFeed ∧ source.unread.head? = some lineFeed then source.unread.tail
  else source.unread

theorem ahead_ofBytes (bytes : List UInt8) : (ofBytes bytes).ahead = bytes := by
  simp [ahead, ofBytes]

theorem takeLine_unread (h : source.unread ≠ []) :
    takeLine source.skipsLineFeed source.unread = takeLine false source.ahead := by
  obtain ⟨unread, skips, finished⟩ := source
  cases unread with
  | nil => exact absurd rfl h
  | cons byte unread =>
      by_cases hb : byte = lineFeed
      · cases skips <;> simp [ahead, takeLine, hb]
      · simp [ahead, takeLine, hb]

/-! ## One line -/

theorem takeLine_append (hp : IsPlain bytes) (rest : List UInt8) :
    takeLine false (bytes ++ rest) = Prod.map (bytes ++ ·) id (takeLine false rest) := by
  induction bytes with
  | nil => rfl
  | cons byte bytes ih =>
      obtain ⟨⟨hlf, hcr⟩, hp⟩ := isPlain_cons.1 hp
      simp only [List.cons_append, takeLine, hlf, hcr, false_and, or_self, if_false, ih hp]
      rfl

theorem takeLine_of_plain (hp : IsPlain bytes) :
    takeLine false bytes = (bytes, ⟨[], false, true⟩) := by
  have h := takeLine_append hp []
  simpa [takeLine] using h

/-- A source behind a line. It stands behind the first byte of the terminator, and whether a line feed
is still to be passed over does not depend on what follows. -/
def behind (terminator : Terminator) (rest : List UInt8) : LineSource :=
  ⟨terminator.second ++ rest, terminator ≠ .lineFeed, false⟩

/-- The longest terminator is taken, at once or by the next line. -/
theorem ahead_behind (hl : terminator.IsLongest rest) : (behind terminator rest).ahead = rest := by
  cases terminator with
  | lineFeed => simp [behind, ahead, Terminator.second]
  | carriageReturn =>
      show (if _ then _ else rest) = rest
      exact if_neg fun h => hl.head?_ne h.2
  | both => simp [behind, ahead, Terminator.second]

theorem takeLine_of_line (hp : IsPlain bytes) (terminator : Terminator) (rest : List UInt8) :
    takeLine false (bytes ++ (terminator.bytes ++ rest)) = (bytes, behind terminator rest) := by
  have hne : lineFeed ≠ carriageReturn := by decide
  rw [takeLine_append hp]
  cases terminator <;> simp [Terminator.bytes, Terminator.second, takeLine, behind, hne]

theorem next_of_isFinished (h : source.isFinished = true) : source.next = (none, source) := by
  rw [next, if_pos h]

theorem next_of_unfinished (h : source.isFinished = false) :
    source.next = (some (decodeLine (takeLine source.skipsLineFeed source.unread).1),
      (takeLine source.skipsLineFeed source.unread).2) := by
  simp [next, h]

/-- **A call takes one line of what is ahead**, up to its terminator. -/
theorem next_of_line (hf : source.isFinished = false) (hp : IsPlain bytes)
    (ha : source.ahead = bytes ++ (terminator.bytes ++ rest)) :
    source.next = (some (decodeLine bytes), behind terminator rest) := by
  have hne : source.unread ≠ [] := by
    intro hnil
    have hnone : source.ahead = [] := by simp [ahead, hnil]
    rw [hnone] at ha
    cases terminator <;> simp [Terminator.bytes] at ha
  rw [next_of_unfinished hf, takeLine_unread hne, ha, takeLine_of_line hp]

theorem next_of_last (hf : source.isFinished = false) (hp : IsPlain source.ahead) :
    ∃ after, source.next = (some (decodeLine source.ahead), after) ∧
      after.isFinished = true ∧ after.unread = [] := by
  rw [next_of_unfinished hf]
  by_cases hne : source.unread = []
  · have hnone : source.ahead = [] := by simp [ahead, hne]
    rw [hne, hnone]
    exact ⟨_, rfl, rfl, rfl⟩
  · rw [takeLine_unread hne, takeLine_of_plain hp]
    exact ⟨_, rfl, rfl, rfl⟩

/-! ## The split of an input -/

theorem exists_splits (bytes : List UInt8) : ∃ split, Splits bytes split := by
  induction hn : bytes.length using Nat.strongRecOn generalizing bytes with
  | ind n ih =>
      cases bytes with
      | nil => exact ⟨_, .last isPlain_nil⟩
      | cons byte bytes =>
          rw [List.length_cons] at hn
          obtain ⟨split, hsplit⟩ := ih bytes.length (by omega) bytes rfl
          by_cases hlf : byte = lineFeed
          · subst hlf
            exact ⟨_, .line isPlain_nil (Terminator.isLongest_lineFeed bytes) hsplit⟩
          by_cases hcr : byte = carriageReturn
          · subst hcr
            by_cases hh : bytes.head? = some lineFeed
            · obtain ⟨rest, rfl⟩ := List.head?_eq_some_iff.1 hh
              rw [List.length_cons] at hn
              obtain ⟨split', hsplit'⟩ := ih rest.length (by omega) rest rfl
              exact ⟨_, .line isPlain_nil (Terminator.isLongest_both rest) hsplit'⟩
            · exact ⟨_, .line isPlain_nil (Terminator.isLongest_carriageReturn hh) hsplit⟩
          -- any other byte belongs to the first piece
          cases hsplit with
          | last hp => exact ⟨_, .last (isPlain_cons.2 ⟨⟨hlf, hcr⟩, hp⟩)⟩
          | line hp hl hrest => exact ⟨_, .line (isPlain_cons.2 ⟨⟨hlf, hcr⟩, hp⟩) hl hrest⟩

/-- **An input has only one split.** A line and what is behind it are what a source reads, and so
they are the same in every split. -/
theorem splits_unique {other : Split} (h : Splits bytes split) (h' : Splits bytes other) :
    split = other := by
  induction h generalizing other with
  | @last bytes hp =>
      have hf : (takeLine false bytes).2.isFinished = true := by rw [takeLine_of_plain hp]
      -- `cases` needs a variable in the place of the bytes
      generalize hall : bytes = all at h' hf
      cases h' with
      | last => rfl
      | line hp' =>
          rw [takeLine_of_line hp'] at hf
          cases hf
  | @line bytes rest terminator split hp hl _ ih =>
      have ht := takeLine_of_line hp terminator rest
      generalize hall : bytes ++ (terminator.bytes ++ rest) = all at h' ht
      cases h' with
      | last hp' =>
          have hf := congrArg (fun r => r.2.isFinished) ht
          rw [takeLine_of_plain hp'] at hf
          cases hf
      | @line bytes' rest' terminator' split' hp' hl' hrest' =>
          rw [takeLine_of_line hp'] at ht
          obtain ⟨rfl, hbehind⟩ := Prod.mk.inj ht
          have hrest : rest = rest' := by
            rw [← ahead_behind hl, ← hbehind, ahead_behind hl']
          subst hrest
          have hbytes : terminator.bytes = terminator'.bytes :=
            List.append_cancel_right (List.append_cancel_left hall)
          rw [ih hrest', Terminator.bytes_inj hbytes]

/-! ## All lines -/

def after (source : LineSource) : Nat → LineSource
  | 0 => source
  | k + 1 => source.next.2.after k

theorem after_of_isFinished (h : source.isFinished = true) (k : Nat) : source.after k = source := by
  induction k with
  | zero => rfl
  | succ k ih =>
      rw [after, next_of_isFinished h]
      exact ih

/-- **A source gives the pieces of what is ahead one after another, and then nothing for ever.** -/
theorem next_after (h : Splits bytes split) (hf : source.isFinished = false)
    (ha : source.ahead = bytes) (k : Nat) :
    (source.after k).next.1 = split.pieces[k]?.map decodeLine := by
  induction h generalizing source k with
  | last hp =>
      subst ha
      obtain ⟨later, hn, hfinished, -⟩ := next_of_last hf hp
      cases k with
      | zero =>
          rw [after, hn]
          rfl
      | succ k =>
          rw [after, hn, after_of_isFinished hfinished, next_of_isFinished hfinished]
          rfl
  | line hp hl _ ih =>
      have hn := next_of_line hf hp ha
      cases k with
      | zero =>
          rw [after, hn]
          rfl
      | succ k =>
          rw [after, hn, ih rfl (ahead_behind hl)]
          rfl

theorem readAll_of_next {line : Except Error (List Char)} {later : LineSource}
    (h : source.next = (some line, later)) : source.readAll = line :: later.readAll := by
  rw [readAll]
  split
  next hn =>
    rw [h] at hn
    cases hn
  next hn =>
    rw [h] at hn
    cases hn
    rfl

theorem readAll_of_isFinished (h : source.isFinished = true) : source.readAll = [] := by
  have hnext := next_of_isFinished h
  rw [readAll]
  split
  next => rfl
  next hn =>
    rw [hnext] at hn
    cases hn

theorem readAll_eq (h : Splits bytes split) (hf : source.isFinished = false)
    (ha : source.ahead = bytes) : source.readAll = split.pieces.map decodeLine := by
  induction h generalizing source with
  | last hp =>
      subst ha
      obtain ⟨later, hn, hfinished, -⟩ := next_of_last hf hp
      rw [readAll_of_next hn, readAll_of_isFinished hfinished]
      rfl
  | line hp hl _ ih =>
      rw [readAll_of_next (next_of_line hf hp ha), ih rfl (ahead_behind hl)]
      rfl

/-! ## The text of a line -/

theorem decodeLine_eq_ok_iff {text : List Char} :
    decodeLine bytes = .ok text ↔ Text.toBytes text = bytes := by
  rw [← Text.ofBytes?_eq_some_iff, decodeLine]
  split
  next h => simp [h]
  next h => simp [h]

theorem decodeLine_eq_error_iff :
    decodeLine bytes = .error .invalidUtf8 ↔ ∀ text, Text.toBytes text ≠ bytes := by
  rw [← Text.ofBytes?_eq_none_iff, decodeLine]
  split
  next h => simp [h]
  next h => simp [h]

/-- **The lines of an input are the pieces of its split.** There is exactly one leftmost and longest
split. It has one piece more than terminators, and the calls of a source give the pieces in order
and then nothing for ever. A piece is given as the text whose UTF-8 form it is, and as an error if
it is no such form, whatever the other pieces are. -/
theorem lines_are_pieces (bytes : List UInt8) :
    ∃ split, Splits bytes split ∧ (∀ other, Splits bytes other → other = split) ∧
      split.pieces.length = split.lines.length + 1 ∧
      (∀ k, ((ofBytes bytes).after k).next.1 = split.pieces[k]?.map decodeLine) ∧
      linesOf bytes = split.pieces.map decodeLine ∧
      ∀ piece, (∀ text, decodeLine piece = .ok text ↔ Text.toBytes text = piece) ∧
        (decodeLine piece = .error .invalidUtf8 ↔ ∀ text, Text.toBytes text ≠ piece) := by
  obtain ⟨split, hsplit⟩ := exists_splits bytes
  have hahead := ahead_ofBytes bytes
  refine ⟨split, hsplit, fun other hother => splits_unique hother hsplit, by simp [Split.pieces],
    next_after hsplit rfl hahead, readAll_eq hsplit rfl hahead, ?_⟩
  intro piece
  exact ⟨fun text => decodeLine_eq_ok_iff, decodeLine_eq_error_iff⟩

end LineSource
end GCode
