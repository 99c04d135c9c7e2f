import GCode.Proofs.Field.Form

/-!
# Texts that stand apart from a field

Reading looks beyond the end of a field: for a point behind blanks, for digits behind a point, for
another quote, for an argument behind the blanks after a word. None of these is found in a text that
stands apart (`Text.IsApart`), which is empty or starts with blanks and then goes on with nothing
that an argument could start with. So such a text can be appended to a line, or be put behind a
field in place of what stood there, and the field stays the same.

* `Number.read?_append`: a number is read as before if such a text is appended, or none is.
* `Argument.ends_append_iff`, `Argument.ends_of_isApart`: every argument ends before such a text,
  an open literal excepted.
* `Field.read?_append`, `Field.read?_append_of_none`: a field is read as before if such a text is
  appended, and where there is none, none is read.
* `Field.read?_raw_append_iff`: a field is read again from its own text before such a text, unless
  it is an open literal and something follows.
-/

namespace GCode

open Text

def Argument.isFirst (c : Char) : Bool :=
  c = quote || Sign.isSign c || c.isDigit || c = '.'

theorem Field.isDigit_eq_false_of_isWord {c : Char} (h : isWord c = true) : c.isDigit = false := by
  cases hd : c.isDigit with
  | false => rfl
  | true =>
      have hnine : c.val ≤ '9'.val := of_decide_eq_true (Bool.and_eq_true_iff.1 hd).2
      simp only [isWord, Bool.or_eq_true, decide_eq_true_eq] at h
      rcases h with hletter | rfl
      · have hcase : (c.isUpper || c.isLower) = true := hletter
        rcases Bool.or_eq_true_iff.1 hcase with hupper | hlower
        · have hA : 'A'.val ≤ c.val := (of_decide_eq_true hupper).1
          exact absurd (UInt32.le_trans hA hnine) (by decide)
        · have ha : 'a'.val ≤ c.val := of_decide_eq_true (Bool.and_eq_true_iff.1 hlower).1
          exact absurd (UInt32.le_trans ha hnine) (by decide)
      · exact absurd hd (by decide)

theorem Argument.isFirst_eq_false_of_isWord {c : Char} (h : Field.isWord c = true) :
    isFirst c = false := by
  cases hf : isFirst c with
  | false => rfl
  | true =>
      simp only [isFirst, Sign.isSign, Bool.or_eq_true, decide_eq_true_eq] at hf
      rcases hf with ((rfl | rfl | rfl) | hdigit) | rfl
      · exact absurd h (by decide)
      · exact absurd h (by decide)
      · exact absurd h (by decide)
      · rw [Field.isDigit_eq_false_of_isWord h] at hdigit
        cases hdigit
      · exact absurd h (by decide)

/-- A text that is no part of a field before it: nothing at all, or blanks and then nothing that an
argument starts with. -/
def Text.IsApart (text : List Char) : Prop :=
  text = [] ∨ takeBlanks text ≠ [] ∧ Stops Argument.isFirst (dropBlanks text)

namespace Text

variable {gap text : List Char}

theorem isApart_nil : IsApart [] := .inl rfl

theorem isApart_append (hg : IsRun isBlank gap) (hne : gap ≠ []) (h : Stops isBlank text)
    (hs : Stops Argument.isFirst text) : IsApart (gap ++ text) := by
  rw [IsApart, takeBlanks_append hg h, dropBlanks_append hg h]
  exact .inr ⟨hne, hs⟩

theorem isApart_space (h : Stops isBlank text) (hs : Stops Argument.isFirst text) :
    IsApart (' ' :: text) :=
  isApart_append (isRun_cons.2 ⟨by decide, isRun_nil⟩) (List.cons_ne_nil _ _) h hs

theorem IsApart.stops_dropBlanks (h : IsApart text) :
    Stops Argument.isFirst (dropBlanks text) := by
  rcases h with rfl | ⟨-, hs⟩
  · exact stops_nil
  · exact hs

theorem IsApart.stops (h : IsApart text) {q : Char → Bool}
    (hq : ∀ c, isBlank c = true → q c = false) : Stops q text := by
  rcases h with rfl | ⟨hb, -⟩
  · exact stops_nil
  · rw [← takeBlanks_append_dropBlanks text]
    exact (isRun_takeBlanks text).stops hq hb

theorem IsApart.stops_not_isBlank (h : IsApart text) : Stops (fun c => !isBlank c) text :=
  h.stops fun c hc => by rw [hc]; rfl

theorem IsApart.stops_quote (h : IsApart text) : Stops (· = quote) (dropBlanks text) :=
  h.stops_dropBlanks.mono fun c hc => by simp_all [Argument.isFirst]

end Text

variable {tail more : List Char}

/-! ## Numbers -/

namespace Number

variable {n : Number}

theorem ends_append_iff (h : IsApart more) : n.Ends (tail ++ more) ↔ n.Ends tail := by
  have hdigit : Stops Char.isDigit more := h.stops isDigit_eq_false_of_isBlank
  have hpoint : Stops (· = '.') (dropBlanks more) :=
    h.stops_dropBlanks.mono fun c hc => by simp_all [Argument.isFirst]
  have hdigits : Stops Char.isDigit (dropBlanks more) :=
    h.stops_dropBlanks.mono fun c hc => by simp [Argument.isFirst, hc]
  rw [Ends, Ends]
  cases n.point with
  | none => exact and_congr (stops_append_iff hdigit) (stops_dropBlanks_append_iff hpoint)
  | some p =>
      simp only [Point.Ends]
      split
      · exact stops_dropBlanks_append_iff hdigits
      · exact stops_append_iff hdigit

theorem ends_of_isApart (h : IsApart tail) : n.Ends tail := by
  rw [← List.nil_append tail]
  exact (ends_append_iff h).2 n.ends_nil

/-- A number does not reach into a text that stands apart: behind blanks it would have to go on, and
with a character that an argument could start with. -/
theorem WellFormed.eq_nil_of_isApart (hw : n.WellFormed) {text run : List Char}
    (ht : n.text = text ++ run) (h : IsApart (run ++ tail)) : run = [] := by
  by_contra hne
  have hblanks : IsRun isBlank run := by
    refine isRun_of_dropBlanks_eq_nil ?_
    by_contra hd
    obtain ⟨c, rest, hc⟩ := List.exists_cons_of_ne_nil hd
    have hfirst := h.stops_dropBlanks
    rw [dropBlanks_append_of_ne_nil hd, hc, List.cons_append, stops_cons] at hfirst
    have hmem : c ∈ n.text := by
      rw [ht]
      exact List.mem_append_right text (dropBlanks_subset run (hc ▸ List.mem_cons_self))
    rcases hw.of_mem_text hmem with hblank | hsign | hdigit | rfl
    · rw [head_dropBlanks hc] at hblank
      cases hblank
    · simp [Argument.isFirst, hsign] at hfirst
    · simp [Argument.isFirst, hdigit] at hfirst
    · exact absurd hfirst (by decide)
  obtain ⟨c, hc, hlast⟩ := hw.getLast?_text
  have hmem : c ∈ run := by
    rw [ht, List.getLast?_append_of_ne_nil _ hne] at hc
    exact List.mem_of_mem_getLast? hc
  have hblank : isBlank c = true := hblanks c hmem
  rcases hlast with hdigit | rfl
  · rw [isDigit_eq_false_of_isBlank c hblank] at hdigit
    cases hdigit
  · exact absurd hblank (by decide)

/-- **A number is read as before if a text that stands apart is appended**, or none is. -/
theorem read?_append (h : IsApart more) (text : List Char) :
    read? (text ++ more) = (read? text).map fun read => (read.1, read.2 ++ more) := by
  cases hr : read? text with
  | some read =>
      obtain ⟨n, tail⟩ := read
      obtain ⟨hw, he, rfl⟩ := read?_eq_some_iff.1 hr
      rw [List.append_assoc]
      exact read?_text_append hw ((ends_append_iff h).2 he)
  | none =>
      refine Option.eq_none_iff_forall_ne_some.2 ?_
      rintro ⟨n, tail⟩ hread
      obtain ⟨hw, he, htext⟩ := read?_eq_some_iff.1 hread
      -- the number would stand on the text alone, and be read from it
      have hno (run : List Char) (hrun : text = n.text ++ run) (htail : tail = run ++ more) :
          False := by
        rw [htail, ends_append_iff h] at he
        rw [hrun, read?_text_append hw he] at hr
        cases hr
      rcases List.append_eq_append_iff.1 htext with ⟨run, hrun, htail⟩ | ⟨run, hrun, hmore⟩
      · exact hno run hrun htail
      · have hnil : run = [] := by
          rw [hmore] at h
          exact hw.eq_nil_of_isApart hrun h
        rw [hnil, List.append_nil] at hrun
        rw [hnil, List.nil_append] at hmore
        exact hno [] (by rw [hrun, List.append_nil]) hmore.symm

end Number

/-! ## Arguments -/

namespace Argument

variable {argument : Argument}

/-- **An argument ends before what is appended exactly if it ends without it**, if it is not an open
literal. -/
theorem ends_append_iff (h : IsApart more) (ho : argument.isOpen = false) :
    argument.Ends (tail ++ more) ↔ argument.Ends tail := by
  cases argument with
  | absent =>
      simp only [Ends, ← stops_not_isBlank_iff]
      rw [stops_append_iff h.stops_not_isBlank, stops_dropBlanks_append_iff h.stops_quote,
        Number.read?_append h, Option.map_eq_none_iff]
  | number n scaled => exact Number.ends_append_iff h
  | quoted gap literal apostropheEscape =>
      have hclosed : literal.isClosed = true := by simpa [isOpen] using ho
      have hquote : Stops (· = quote) more := h.stops (decide_eq_false_of_class (by decide))
      simp only [Ends, Literal.Ends, hclosed, if_true]
      exact stops_append_iff hquote

/-- **Every argument ends before a text that stands apart**, if it is not an open literal. -/
theorem ends_of_isApart (h : IsApart tail) (ho : argument.isOpen = true → tail = []) :
    argument.Ends tail := by
  cases hopen : argument.isOpen with
  | true =>
      rw [ho hopen]
      exact argument.ends_nil
  | false =>
      rw [← List.nil_append tail]
      exact (ends_append_iff h hopen).2 argument.ends_nil

end Argument

/-! ## Fields -/

namespace Field

variable {settings : Settings} {line : List Char} {field : Field}

theorem read?_append_of_none (h : IsApart more) (hr : read? settings line = none) :
    read? settings (line ++ more) = none := by
  cases line with
  | nil =>
      cases more with
      | nil => rfl
      | cons c more =>
          have hblank : isBlank c = true := by simpa using stops_cons.1 h.stops_not_isBlank
          have hword : ¬isWord c = true := by
            intro hw
            rw [isBlank_eq_false_of_isWord hw] at hblank
            cases hblank
          exact read?_cons_of_noWord hword
  | cons letter rest =>
      rw [List.cons_append]
      by_cases hl : isWord letter = true
      · obtain ⟨hs, hn, hc⟩ := (read?_cons_eq_none_iff hl).1 hr
        refine (read?_cons_eq_none_iff hl).2 ⟨?_, ?_, ?_⟩
        · exact (stops_dropBlanks_append_iff h.stops_quote).2 hs
        · rw [Number.read?_append h, hn, Option.map_none]
        · rwa [← stops_not_isBlank_iff, stops_append_iff h.stops_not_isBlank,
            stops_not_isBlank_iff]
      · exact read?_cons_of_noWord hl

/-- **A field is read as before if a text that stands apart is appended to the line.** It may not be
an open literal, which would take in what is appended. -/
theorem read?_append (h : IsApart more) (hr : read? settings line = some (field, tail))
    (ho : field.argument.isOpen = false) :
    read? settings (line ++ more) = some (field, tail ++ more) := by
  obtain ⟨hw, he, rfl⟩ := read?_eq_some_iff.1 hr
  rw [List.append_assoc]
  exact hw.read?_raw_append ((Argument.ends_append_iff h ho).2 he)

/-- What goes on behind a field on the same line: nothing, or blanks and then nothing, another word
or a comment. -/
def GoesOn (text : List Char) : Prop :=
  text = [] ∨ takeBlanks text ≠ [] ∧
    ∀ c ∈ (dropBlanks text).head?, isWord c = true ∨ c = ';' ∨ c = '('

theorem GoesOn.isApart {text : List Char} (h : GoesOn text) : IsApart text := by
  refine h.imp_right ?_
  rintro ⟨hb, hfirst⟩
  refine ⟨hb, ?_⟩
  intro c hc
  rcases hfirst c hc with hword | rfl | rfl
  · exact Argument.isFirst_eq_false_of_isWord hword
  · decide
  · decide

/-- **A field is read again from its own text**, whatever stood behind it before, if nothing follows
or blanks and then another word or a comment. It is the same field with the same word, text, number
or literal, and the text behind it is left. Only an open literal takes in what follows, so it is the
same again exactly if nothing follows. -/
theorem read?_raw_append_iff {text : List Char} (h : read? settings line = some (field, tail))
    (ht : GoesOn text) :
    read? settings (field.raw ++ text) = some (field, text) ↔
      (field.argument.isOpen = true → text = []) := by
  constructor
  · intro hread hopen
    exact (of_read? hread).2.eq_nil hopen
  · intro hopen
    exact (of_read? h).1.read?_raw_append (Argument.ends_of_isApart ht.isApart hopen)

/-- A number whose point is the end of it, with blanks before the digits. -/
def pointed : Field :=
  ⟨'x', 'X', .number ⟨[' '], some .minus, ['\t'], "012".toList, 12, some ⟨[' '], [], []⟩⟩
    (some (-1200))⟩

theorem read?_raw_append_iff_pointed :
    read? { scale := 2 } "x -\t012 .e5".toList = some (pointed, "e5".toList) ∧
      GoesOn " \t(7".toList ∧
      read? { scale := 2 } "x -\t012 . \t(7".toList = some (pointed, " \t(7".toList) := by
  have h : read? { scale := 2 } "x -\t012 .e5".toList = some (pointed, "e5".toList) := by decide
  have ht : GoesOn " \t(7".toList := by
    refine .inr ⟨by decide, ?_⟩
    rintro c ⟨⟩
    exact .inr (.inr rfl)
  exact ⟨h, ht, (read?_raw_append_iff h ht).2 fun hopen => absurd hopen (by decide)⟩

end Field
end GCode
