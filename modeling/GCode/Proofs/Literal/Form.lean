import GCode.Literal
import GCode.Proofs.Text.Runs

/-!
# The form of a quoted text and where it ends

A quoted text is read again from what it was read from, whatever follows, as long as it ends in the
same way: behind its closing quote no other quote may stand, and a text without a closing quote goes
to the end of the line.

* `Literal.read_plain`, `Literal.read_escape`, `Literal.read_closing`: reading, step by step.
* `Literal.read_eq_iff`: reading gives the literal that is well formed, ends before the tail and
  gives back the text together with it.
* `Literal.read_of_notMem`: where no apostrophe stands, it does not matter what apostrophes do.
-/

namespace GCode.Literal

open Text

variable {apostropheEscape : Bool} {c d : Char} {text tail : List Char} {literal : Literal}

/-! ## Step by step -/

theorem read_escape (h : (c = apostrophe ∧ apostropheEscape = true) ∨ (c = quote ∧ d = quote))
    (text : List Char) :
    read apostropheEscape (c :: d :: text) =
      Prod.map (consEscape c d) id (read apostropheEscape text) := by
  rw [read, if_pos h]

theorem read_closing (h : Stops (· = quote) text) :
    read apostropheEscape (quote :: text) = (finished, text) := by
  have ha : ¬(quote = apostrophe ∧ apostropheEscape = true) := fun ha => absurd ha.1 (by decide)
  cases text with
  | nil => rw [read, if_neg ha, if_pos rfl]
  | cons d text =>
      have hd : d ≠ quote := by simpa using stops_cons.1 h
      rw [read, if_neg fun hm => hm.elim ha fun hq => hd hq.2, if_pos rfl]

theorem read_plain (hq : c ≠ quote) (ha : ¬(c = apostrophe ∧ apostropheEscape = true))
    (text : List Char) :
    read apostropheEscape (c :: text) = Prod.map (cons c) id (read apostropheEscape text) := by
  cases text with
  | nil =>
      simp only [read, if_neg ha, if_neg hq]
      rfl
  | cons d text => rw [read, if_neg fun hm => hm.elim ha fun h => hq h.1, if_neg hq]

/-! ## The same literal again -/

/-- A literal is well formed if it is read from its own text. -/
def WellFormed (apostropheEscape : Bool) (literal : Literal) : Prop :=
  read apostropheEscape literal.text = (literal, [])

/-- What may follow a literal: no quote behind its closing quote, and nothing if it has none. -/
def Ends (literal : Literal) (tail : List Char) : Prop :=
  if literal.isClosed then Stops (· = quote) tail else tail = []

theorem ends_nil (literal : Literal) : literal.Ends [] := by
  rw [Ends]
  split
  · exact stops_nil
  · rfl

theorem Ends.eq_nil (h : literal.Ends tail) (ho : literal.isClosed = false) : tail = [] := by
  simpa [Ends, ho] using h

theorem ends_read (text : List Char) :
    (read apostropheEscape text).1.Ends (read apostropheEscape text).2 := by
  fun_induction read apostropheEscape text with
  | case1 => rfl
  | case2 => rfl
  | case3 => exact stops_nil
  | case4 => rfl
  | case5 c d text h ih => exact ih
  | case6 d text h => exact stops_cons.2 (decide_eq_false fun hd => h (.inr ⟨rfl, hd⟩))
  | case7 c d text h hq ih => exact ih

/-- **A literal is read again from its text**, before any tail that it may end before. -/
theorem read_text_read_append (text : List Char) (h : (read apostropheEscape text).1.Ends tail) :
    read apostropheEscape ((read apostropheEscape text).1.text ++ tail) =
      ((read apostropheEscape text).1, tail) := by
  fun_induction read apostropheEscape text with
  | case1 =>
      have ht : tail = [] := h
      rw [ht]
      rfl
  | case2 c hm =>
      have ht : tail = [] := h
      -- an open literal is at the end of its line, so its apostrophe is dangling again
      have he : read true [apostrophe] = (dangling, []) := rfl
      rw [ht, hm.2]
      exact he
  | case3 => exact read_closing h
  | case4 c hm hq =>
      have ht : tail = [] := h
      rw [ht]
      exact read_plain hq hm []
  | case5 c d text hm ih =>
      rw [Prod.map_fst, text_consEscape]
      exact (read_escape hm _).trans (congrArg (Prod.map (consEscape c d) id) (ih h))
  | case6 => exact read_closing h
  | case7 c d text hm hq ih =>
      rw [Prod.map_fst, text_cons]
      exact (read_plain hq (fun ha => hm (.inl ha)) _).trans
        (congrArg (Prod.map (cons c) id) (ih h))

theorem WellFormed.read_text_append (hw : literal.WellFormed apostropheEscape)
    (he : literal.Ends tail) : read apostropheEscape (literal.text ++ tail) = (literal, tail) := by
  have hself : read apostropheEscape literal.text = (literal, []) := hw
  have hliteral : (read apostropheEscape literal.text).1 = literal := congrArg Prod.fst hself
  rw [← hliteral] at he
  have hr := read_text_read_append literal.text he
  rwa [hliteral] at hr

theorem wellFormed_read (text : List Char) :
    (read apostropheEscape text).1.WellFormed apostropheEscape := by
  have hr := read_text_read_append text (ends_nil (read apostropheEscape text).1)
  rwa [List.append_nil] at hr

/-- **The literal at the head of a text is the one that is well formed and ends before the tail.** -/
theorem read_eq_iff :
    read apostropheEscape text = (literal, tail) ↔
      literal.WellFormed apostropheEscape ∧ literal.Ends tail ∧ literal.text ++ tail = text := by
  constructor
  · intro h
    obtain ⟨rfl, rfl⟩ := Prod.mk.inj h
    exact ⟨wellFormed_read text, ends_read text, text_append apostropheEscape text⟩
  · rintro ⟨hw, he, rfl⟩
    exact hw.read_text_append he

/-! ## Texts without apostrophes -/

/-- **Where no apostrophe stands, it does not matter whether apostrophes are escapes.** -/
theorem read_of_notMem (h : apostrophe ∉ text) (apostropheEscape apostropheEscape' : Bool) :
    read apostropheEscape text = read apostropheEscape' text := by
  fun_induction read apostropheEscape text with
  | case1 => rfl
  | case2 c hm => exact absurd (hm.1 ▸ List.mem_singleton_self c) h
  | case3 hm => exact (read_closing stops_nil).symm
  | case4 c hm hq =>
      have ha : c ≠ apostrophe := fun ha => h (ha ▸ List.mem_singleton_self c)
      exact (read_plain hq (fun hc => ha hc.1) []).symm
  | case5 c d text hm ih =>
      have ha : c ≠ apostrophe := fun ha => h (ha ▸ List.mem_cons_self)
      have hq : c = quote ∧ d = quote := hm.resolve_left fun hc => ha hc.1
      have ht : apostrophe ∉ text := fun hc => h (List.mem_cons_of_mem _ (List.mem_cons_of_mem _ hc))
      rw [ih ht, read_escape (.inr hq)]
  | case6 d text hm =>
      exact (read_closing (stops_cons.2 (decide_eq_false fun hd => hm (.inr ⟨rfl, hd⟩)))).symm
  | case7 c d text hm hq ih =>
      have ha : c ≠ apostrophe := fun ha => h (ha ▸ List.mem_cons_self)
      rw [ih fun hc => h (List.mem_cons_of_mem _ hc), read_plain hq fun hc => ha hc.1]

end GCode.Literal
