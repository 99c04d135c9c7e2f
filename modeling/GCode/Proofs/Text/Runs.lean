import GCode.Numeral
import GCode.Text.Blank

/-!
# Runs of one class of characters

Blanks and digits are read as runs: as many characters of one class as there are. A text is cut
at the end of a run in only one way, so a reader that takes a run is known by where it stops.

* `takeWhile_append`, `dropWhile_append`: a run is taken whole if what follows it starts outside
  of its class.
* `append_inj_of_run`: two such cuts of one text are the same cut.
* `IsLongest`: the longest beginning of a text that a rule allows.
-/

namespace GCode.Text

/-- A text of characters of one class only. -/
def IsRun (p : Char → Bool) (text : List Char) : Prop := ∀ c ∈ text, p c = true

/-- A text that is empty or starts with a character outside of a class. -/
def Stops (p : Char → Bool) (text : List Char) : Prop := ∀ c ∈ text.head?, p c = false

section
variable {p q : Char → Bool} {c : Char} {run text rest tail : List Char}

/-! ## Runs and where they stop -/

@[simp] theorem isRun_nil : IsRun p [] := fun _ h => by cases h

@[simp] theorem isRun_cons : IsRun p (c :: text) ↔ p c = true ∧ IsRun p text := by
  simp [IsRun]

@[simp] theorem isRun_append : IsRun p (run ++ text) ↔ IsRun p run ∧ IsRun p text := by
  simp [IsRun, or_imp, forall_and]

@[simp] theorem stops_nil : Stops p [] := fun _ h => by cases h

@[simp] theorem stops_cons : Stops p (c :: text) ↔ p c = false := by
  simp [Stops]

theorem IsRun.notMem (h : IsRun p run) (hc : p c = false) : c ∉ run := by
  intro hm
  rw [h c hm] at hc
  cases hc

theorem isRun_ne_iff : IsRun (· ≠ c) text ↔ c ∉ text := by
  constructor
  · intro h hm
    exact absurd (h c hm) (by simp)
  · intro h d hd
    refine decide_eq_true ?_
    rintro rfl
    exact h hd

theorem decide_eq_false_of_class {d : Char} (hq : p d = false) (c : Char) (hc : p c = true) :
    decide (c = d) = false := by
  refine decide_eq_false ?_
  rintro rfl
  rw [hq] at hc
  cases hc

theorem IsRun.stops (h : IsRun p run) (hq : ∀ c, p c = true → q c = false) (hne : run ≠ []) :
    Stops q (run ++ text) := by
  cases run with
  | nil => exact absurd rfl hne
  | cons c run => exact stops_cons.2 (hq c (isRun_cons.1 h).1)

theorem IsRun.stops_append (h : IsRun p run) (hq : ∀ c, p c = true → q c = false)
    (ht : Stops q text) : Stops q (run ++ text) := by
  by_cases hne : run = []
  · rw [hne]
    exact ht
  · exact h.stops hq hne

theorem Stops.mono (h : Stops p text) (hpq : ∀ c, q c = true → p c = true) : Stops q text := by
  intro c hc
  cases hq : q c with
  | false => rfl
  | true => exact absurd (hpq c hq) (by simp [h c hc])

theorem stops_append_iff (h : Stops p rest) : Stops p (text ++ rest) ↔ Stops p text := by
  cases text with
  | nil => exact iff_of_true h stops_nil
  | cons c text => rw [List.cons_append, stops_cons, stops_cons]

theorem IsRun.takeWhile (text : List Char) : IsRun p (text.takeWhile p) := by
  intro c hc
  exact List.all_eq_true.1 List.all_takeWhile c hc

theorem Stops.dropWhile (text : List Char) : Stops p (text.dropWhile p) := by
  induction text with
  | nil => exact stops_nil
  | cons c text ih =>
      by_cases hc : p c = true
      · rw [List.dropWhile_cons_of_pos hc]
        exact ih
      · rw [List.dropWhile_cons_of_neg hc]
        exact stops_cons.2 (by simpa using hc)

/-! ## A run is taken whole -/

theorem takeWhile_append (hr : IsRun p run) (hs : Stops p rest) :
    (run ++ rest).takeWhile p = run := by
  induction run with
  | nil =>
      cases rest with
      | nil => rfl
      | cons c rest => simp [stops_cons.1 hs]
  | cons c run ih =>
      obtain ⟨hc, hr⟩ := isRun_cons.1 hr
      rw [List.cons_append, List.takeWhile_cons_of_pos hc, ih hr]

theorem dropWhile_append (hr : IsRun p run) (hs : Stops p rest) :
    (run ++ rest).dropWhile p = rest := by
  have h := List.takeWhile_append_dropWhile (p := p) (l := run ++ rest)
  rw [takeWhile_append hr hs] at h
  exact List.append_cancel_left h

theorem append_inj_of_run {run' rest' : List Char} (hr : IsRun p run) (hs : Stops p rest)
    (hr' : IsRun p run') (hs' : Stops p rest') (h : run ++ rest = run' ++ rest') :
    run = run' ∧ rest = rest' := by
  refine ⟨?_, ?_⟩
  · rw [← takeWhile_append hr hs, h, takeWhile_append hr' hs']
  · rw [← dropWhile_append hr hs, h, dropWhile_append hr' hs']

theorem takeWhile_eq_nil (hs : Stops p rest) : rest.takeWhile p = [] := by
  have h := takeWhile_append (isRun_nil : IsRun p []) hs
  simpa using h

theorem dropWhile_eq_self (hs : Stops p rest) : rest.dropWhile p = rest := by
  have h := dropWhile_append (isRun_nil : IsRun p []) hs
  simpa using h

end

/-! ## Blanks and digits -/

theorem isRun_takeBlanks (text : List Char) : IsRun isBlank (takeBlanks text) :=
  fun _ h => isBlank_of_mem_takeBlanks h

theorem stops_dropBlanks (text : List Char) : Stops isBlank (dropBlanks text) := by
  cases h : dropBlanks text with
  | nil => exact stops_nil
  | cons c rest => exact stops_cons.2 (head_dropBlanks h)

theorem takeBlanks_append {gap rest : List Char} (hg : IsRun isBlank gap)
    (hs : Stops isBlank rest) : takeBlanks (gap ++ rest) = gap :=
  takeWhile_append hg hs

theorem dropBlanks_append {gap rest : List Char} (hg : IsRun isBlank gap)
    (hs : Stops isBlank rest) : dropBlanks (gap ++ rest) = rest :=
  dropWhile_append hg hs

theorem dropBlanks_eq_self {rest : List Char} (hs : Stops isBlank rest) :
    dropBlanks rest = rest :=
  dropWhile_eq_self hs

theorem dropBlanks_subset (text : List Char) : dropBlanks text ⊆ text :=
  (List.dropWhile_sublist isBlank).subset

theorem dropBlanks_append_of_ne_nil {text : List Char} (h : dropBlanks text ≠ [])
    (rest : List Char) : dropBlanks (text ++ rest) = dropBlanks text ++ rest := by
  have hs : Stops isBlank (dropBlanks text ++ rest) := by
    obtain ⟨c, more, hc⟩ := List.exists_cons_of_ne_nil h
    rw [hc]
    exact stops_cons.2 (head_dropBlanks hc)
  have hsplit := dropBlanks_append (isRun_takeBlanks text) hs
  rwa [← List.append_assoc, takeBlanks_append_dropBlanks] at hsplit

theorem isRun_of_dropBlanks_eq_nil {text : List Char} (h : dropBlanks text = []) :
    IsRun isBlank text := by
  have hsplit := takeBlanks_append_dropBlanks text
  rw [h, List.append_nil] at hsplit
  rw [← hsplit]
  exact isRun_takeBlanks text

theorem dropBlanks_append_of_isRun {gap : List Char} (hg : IsRun isBlank gap) (rest : List Char) :
    dropBlanks (gap ++ rest) = dropBlanks rest := by
  have hsplit := takeBlanks_append_dropBlanks rest
  have hall : IsRun isBlank (gap ++ takeBlanks rest) := isRun_append.2 ⟨hg, isRun_takeBlanks rest⟩
  have hdrop := dropBlanks_append hall (stops_dropBlanks rest)
  rwa [List.append_assoc, hsplit] at hdrop

theorem stops_dropBlanks_append_iff {p : Char → Bool} {text rest : List Char}
    (h : Stops p (dropBlanks rest)) :
    Stops p (dropBlanks (text ++ rest)) ↔ Stops p (dropBlanks text) := by
  by_cases hd : dropBlanks text = []
  · rw [dropBlanks_append_of_isRun (isRun_of_dropBlanks_eq_nil hd), hd]
    exact iff_of_true h stops_nil
  · obtain ⟨c, more, hc⟩ := List.exists_cons_of_ne_nil hd
    rw [dropBlanks_append_of_ne_nil hd, hc, List.cons_append, stops_cons, stops_cons]

theorem stops_not_isBlank_iff {text : List Char} :
    Stops (fun c => !isBlank c) text ↔ text = [] ∨ takeBlanks text ≠ [] := by
  cases text with
  | nil => exact iff_of_true stops_nil (.inl rfl)
  | cons c text => cases hc : isBlank c <;> simp [takeBlanks, hc]

theorem isDigit_eq_false_of_isBlank (c : Char) (h : isBlank c = true) : c.isDigit = false := by
  simp only [isBlank, Bool.or_eq_true, decide_eq_true_eq] at h
  rcases h with rfl | rfl <;> decide

theorem isBlank_eq_false_of_isDigit (c : Char) (h : c.isDigit = true) : isBlank c = false := by
  cases hb : isBlank c with
  | false => rfl
  | true =>
      rw [isDigit_eq_false_of_isBlank c hb] at h
      cases h

/-! ## Longest beginnings -/

/-- `text` is the longest beginning of `line` that a rule allows, and `tail` what is left. A rule
may look at the text after the beginning. -/
structure IsLongest (rule : (text tail : List Char) → Prop) (line text tail : List Char) :
    Prop where
  append_eq : text ++ tail = line
  allowed : rule text tail
  length_le : ∀ text' tail', text' ++ tail' = line → rule text' tail' → text'.length ≤ text.length

theorem IsLongest.unique {rule : List Char → List Char → Prop}
    {line text tail text' tail' : List Char}
    (h : IsLongest rule line text tail) (h' : IsLongest rule line text' tail') :
    text = text' ∧ tail = tail' := by
  have hle := h.length_le text' tail' h'.append_eq h'.allowed
  have hge := h'.length_le text tail h.append_eq h.allowed
  exact List.append_inj (h.append_eq.trans h'.append_eq.symm) (by omega)

end GCode.Text

namespace GCode.Numeral

open Text

theorem isRun_takeDigits (text : List Char) : IsRun Char.isDigit (takeDigits text) :=
  IsRun.takeWhile text

theorem stops_dropDigits (text : List Char) : Stops Char.isDigit (dropDigits text) :=
  Stops.dropWhile text

theorem takeDigits_append {digits rest : List Char} (hd : IsRun Char.isDigit digits)
    (hs : Stops Char.isDigit rest) : takeDigits (digits ++ rest) = digits :=
  takeWhile_append hd hs

theorem dropDigits_append {digits rest : List Char} (hd : IsRun Char.isDigit digits)
    (hs : Stops Char.isDigit rest) : dropDigits (digits ++ rest) = rest :=
  dropWhile_append hd hs

end GCode.Numeral
