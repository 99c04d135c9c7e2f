import GCode.Literal
import GCode.Proofs.Text.Runs

/-!
# The grammar of quoted texts

`Literal.Rule` is the rule of a quoted text from after its opening quote on. A quote that is not the
closing one is written twice; if apostrophes are escapes, an apostrophe takes the next character
with it. The closing quote, and what a last apostrophe would take, may be missing.

* `Literal.isLongest_read`: what is read is the longest beginning that the rule allows.
-/

namespace GCode.Literal

open Text

/-- A quoted text after its opening quote. -/
inductive Rule (apostropheEscape : Bool) : List Char → Prop
  | unclosed : Rule apostropheEscape []
  | closed : Rule apostropheEscape [quote]
  | dangling : apostropheEscape = true → Rule apostropheEscape [apostrophe]
  | plain {c : Char} {text : List Char} : c ≠ quote → ¬(c = apostrophe ∧ apostropheEscape = true) →
      Rule apostropheEscape text → Rule apostropheEscape (c :: text)
  | doubled {text : List Char} : Rule apostropheEscape text →
      Rule apostropheEscape (quote :: quote :: text)
  | escaped {c : Char} {text : List Char} : apostropheEscape = true →
      Rule apostropheEscape text → Rule apostropheEscape (apostrophe :: c :: text)

variable {apostropheEscape : Bool}

theorem quote_ne_apostrophe : quote ≠ apostrophe := by decide

theorem Rule.of_escape {c d : Char} {text : List Char}
    (hm : (c = apostrophe ∧ apostropheEscape = true) ∨ (c = quote ∧ d = quote))
    (h : Rule apostropheEscape text) : Rule apostropheEscape (c :: d :: text) := by
  rcases hm with ⟨rfl, he⟩ | ⟨rfl, rfl⟩
  · exact .escaped he h
  · exact .doubled h

theorem rule_read (text : List Char) :
    Rule apostropheEscape (read apostropheEscape text).1.text := by
  fun_induction read apostropheEscape text with
  | case1 => exact .unclosed
  | case2 c h => exact .dangling h.2
  | case3 => exact .closed
  | case4 c hm hq => exact .plain hq hm .unclosed
  | case5 c d text h ih => exact .of_escape h ih
  | case6 => exact .closed
  | case7 c d text hm hq ih => exact .plain hq (fun h => hm (.inl h)) ih

/-- A beginning that the rule allows and that starts with an escape is the mark alone, or goes on
behind the escape. -/
theorem Rule.cases_escape {c d : Char} {text : List Char}
    (hm : (c = apostrophe ∧ apostropheEscape = true) ∨ (c = quote ∧ d = quote))
    {rest : List Char} (h : Rule apostropheEscape (c :: text)) (ht : text <+: d :: rest) :
    text = [] ∨ ∃ text', text = d :: text' ∧ Rule apostropheEscape text' := by
  cases h with
  | closed => exact .inl rfl
  | dangling => exact .inl rfl
  | plain hq ha _ =>
      rcases hm with hm | hm
      · exact absurd hm ha
      · exact absurd hm.1 hq
  | @doubled text' h =>
      refine .inr ⟨text', ?_, h⟩
      rw [(List.cons_prefix_cons.1 ht).1]
  | @escaped e text' _ h =>
      refine .inr ⟨text', ?_, h⟩
      rw [(List.cons_prefix_cons.1 ht).1]

theorem Rule.eq_nil_of_quote {c : Char} {text : List Char} (hc : c = quote)
    (hn : Stops (· = quote) text) (h : Rule apostropheEscape (c :: text)) : text = [] := by
  cases h with
  | closed => rfl
  | dangling => rfl
  | plain hq _ _ => exact absurd hc hq
  | doubled _ => exact absurd (stops_cons.1 hn) (by decide)
  | escaped _ _ => exact absurd hc.symm quote_ne_apostrophe

theorem Rule.of_plain {c : Char} {text : List Char} (hq : c ≠ quote)
    (ha : ¬(c = apostrophe ∧ apostropheEscape = true)) (h : Rule apostropheEscape (c :: text)) :
    Rule apostropheEscape text := by
  cases h with
  | closed => exact .unclosed
  | dangling => exact .unclosed
  | plain _ _ h => exact h
  | doubled _ => exact absurd rfl hq
  | escaped he _ => exact absurd ⟨rfl, he⟩ ha

theorem length_le_length_read {line text : List Char} (hr : Rule apostropheEscape text)
    (hp : text <+: line) : text.length ≤ (read apostropheEscape line).1.text.length := by
  fun_induction read apostropheEscape line generalizing text with
  | case1 => simp [List.prefix_nil.1 hp]
  | case2 c h => exact hp.length_le
  | case3 => exact hp.length_le
  | case4 c hm hq => exact hp.length_le
  | case5 c d line hm ih =>
      cases text with
      | nil => exact Nat.zero_le _
      | cons e text =>
          obtain ⟨he, ht⟩ := List.cons_prefix_cons.1 hp
          subst he
          -- a beginning may also stop at the mark, where a quote would be the closing one
          rcases hr.cases_escape hm ht with rfl | ⟨text', rfl, hr'⟩
          · simp [text_consEscape]
          · have h := ih hr' (List.cons_prefix_cons.1 ht).2
            simpa [text_consEscape] using h
  | case6 d line hm =>
      cases text with
      | nil => exact Nat.zero_le _
      | cons e text =>
          obtain ⟨he, ht⟩ := List.cons_prefix_cons.1 hp
          have hd : d ≠ quote := fun h => hm (.inr ⟨rfl, h⟩)
          have hs : Stops (· = quote) text := by
            cases text with
            | nil => exact stops_nil
            | cons f text =>
                rw [(List.cons_prefix_cons.1 ht).1]
                exact stops_cons.2 (decide_eq_false hd)
          rw [hr.eq_nil_of_quote he hs]
          exact Nat.le_refl 1
  | case7 c d line hm hq ih =>
      cases text with
      | nil => exact Nat.zero_le _
      | cons e text =>
          obtain ⟨he, ht⟩ := List.cons_prefix_cons.1 hp
          subst he
          have h := ih (hr.of_plain hq fun h => hm (.inl h)) ht
          simpa [text_cons] using h

/-- **What is read is the longest beginning that the rule allows.** -/
theorem isLongest_read (line : List Char) :
    IsLongest (fun text _ => Rule apostropheEscape text) line
      (read apostropheEscape line).1.text (read apostropheEscape line).2 := by
  refine ⟨text_append apostropheEscape line, rule_read line, ?_⟩
  rintro text tail rfl hr
  exact length_le_length_read hr (List.prefix_append text tail)

end GCode.Literal
