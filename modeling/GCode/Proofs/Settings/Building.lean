import GCode.Proofs.Settings.Loading
import GCode.Settings.Step

/-!
# What a run of steps leaves behind

Every step on settings asks for values of some options and leaves the others as they are
(`Settings.Step.Requests`). It is accepted unless it asks for too many places, or for nothing that
could be read. An accepted step changes just what it asks for, and any other step changes nothing,
so after a run each option has the value that was asked for last.

* `Settings.Step.apply_eq_ok_iff`, `Settings.Step.apply_eq_error_iff`: all that a step can do.
* `Settings.isLatest_after`: an option after a run.
* `Settings.outcomes_concat`: the outcome of a step is that of the step on what the run before it
  has left behind.
-/

namespace GCode.Settings

/-! ## What a step asks for -/

/-- The values that are asked for, option by option. -/
structure Request where
  letterCase : Option LetterCase
  scale : Option Nat
  apostropheEscape : Option Bool
  deriving DecidableEq, Repr

namespace Request

def all (options : Options) : Request :=
  ⟨some options.letterCase, some options.scale, some options.apostropheEscape⟩

def IsAllowed (request : Request) : Prop := ∀ scale ∈ request.scale, scale ≤ maxScale

end Request

def Options.following (options : Options) (request : Request) : Options :=
  ⟨request.letterCase.getD options.letterCase, request.scale.getD options.scale,
    request.apostropheEscape.getD options.apostropheEscape⟩

namespace Step

/-- What a step asks for. Data that gives no options asks for nothing. -/
inductive Requests : Step → Request → Prop
  | reset : Requests .reset (.all ⟨.upper, 0, false⟩)
  | make (letterCase : LetterCase) (scale : Nat) (apostropheEscape : Bool) :
      Requests (.make letterCase scale apostropheEscape)
        (.all ⟨letterCase, scale, apostropheEscape⟩)
  | setLetterCase (letterCase : LetterCase) :
      Requests (.setLetterCase letterCase) ⟨some letterCase, none, none⟩
  | setScale (scale : Nat) : Requests (.setScale scale) ⟨none, some scale, none⟩
  | setApostropheEscape (apostropheEscape : Bool) :
      Requests (.setApostropheEscape apostropheEscape) ⟨none, none, some apostropheEscape⟩
  | load {data : Value} {options : Options} : Gives data options →
      Requests (.load data) (.all options)

/-- A step asks for something that can be had. -/
def Accepts (step : Step) (request : Request) : Prop := step.Requests request ∧ request.IsAllowed

/-- Why a step is refused: it asks for too many places, or loads data that gives no options. -/
inductive Refuses : Step → Refusal → Prop
  | scale {step : Step} {request : Request} {scale : Nat} : step.Requests request →
      request.scale = some scale → maxScale < scale → Refuses step (.invalid (.invalidScale scale))
  | malformed {data : Value} : (∀ options, ¬Gives data options) → Refuses (.load data) .malformed

variable {settings next : Settings} {step : Step} {request other : Request} {refusal : Refusal}

theorem Requests.unique (h : step.Requests request) (ho : step.Requests other) :
    request = other := by
  cases h with
  | load hgives =>
      cases ho with
      | load hogives => rw [hgives.unique hogives]
  | _ =>
      cases ho
      rfl

/-! ## What a step does -/

/-- **A step makes the options that it asks for**, if they can be had. -/
theorem apply_of_requests (settings : Settings) (h : step.Requests request) :
    step.apply settings = (settings.options.following request).check.mapError .invalid := by
  -- A step that leaves the number of places as it is always makes settings.
  have hmade {next : Settings} (hn : next.options = settings.options.following request) :
      (settings.options.following request).check.mapError Refusal.invalid = .ok next := by
    rw [Options.check_eq_ok_iff.2 hn]
    rfl
  cases h with
  | reset => rfl
  | make letterCase scale apostropheEscape => rfl
  | setLetterCase letterCase => exact (hmade rfl).symm
  | setScale scale => rfl
  | setApostropheEscape apostropheEscape => exact (hmade rfl).symm
  | load hgives =>
      rw [apply, Settings.load, readOptions_eq_ok_iff.2 hgives]
      rfl

theorem requests_or_malformed (step : Step) :
    (∃ request, step.Requests request) ∨ step.Refuses .malformed := by
  cases step with
  | reset => exact .inl ⟨_, .reset⟩
  | make letterCase scale apostropheEscape =>
      exact .inl ⟨_, .make letterCase scale apostropheEscape⟩
  | setLetterCase letterCase => exact .inl ⟨_, .setLetterCase letterCase⟩
  | setScale scale => exact .inl ⟨_, .setScale scale⟩
  | setApostropheEscape apostropheEscape => exact .inl ⟨_, .setApostropheEscape apostropheEscape⟩
  | load data =>
      by_cases hgives : ∃ options, Gives data options
      · obtain ⟨options, hoptions⟩ := hgives
        exact .inl ⟨_, .load hoptions⟩
      · exact .inr (.malformed fun options hoptions => hgives ⟨options, hoptions⟩)

theorem accepts_or_refuses (step : Step) :
    (∃ request, step.Accepts request) ∨ ∃ refusal, step.Refuses refusal := by
  rcases step.requests_or_malformed with ⟨request, hrequest⟩ | hmalformed
  · by_cases hallowed : request.IsAllowed
    · exact .inl ⟨request, hrequest, hallowed⟩
    · obtain ⟨scale, hscale, hlarge⟩ : ∃ scale, request.scale = some scale ∧ ¬scale ≤ maxScale := by
        simpa [Request.IsAllowed] using hallowed
      exact .inr ⟨_, .scale hrequest hscale (Nat.lt_of_not_le hlarge)⟩
  · exact .inr ⟨_, hmalformed⟩

theorem scale_following_le (settings : Settings) (h : request.IsAllowed) :
    (settings.options.following request).scale ≤ maxScale := by
  cases hscale : request.scale with
  | none =>
      rw [Options.following, hscale]
      exact settings.scale_le
  | some scale =>
      rw [Options.following, hscale]
      exact h scale hscale

theorem apply_of_accepts (settings : Settings) (h : step.Accepts request) :
    ∃ next, step.apply settings = .ok next ∧
      next.options = settings.options.following request := by
  rw [apply_of_requests settings h.1]
  cases hcheck : (settings.options.following request).check with
  | ok next => exact ⟨next, rfl, Options.check_eq_ok_iff.1 hcheck⟩
  | error error =>
      have hlarge := (Options.check_eq_error_iff.1 hcheck).1
      exact absurd (scale_following_le settings h.2) (Nat.not_le_of_lt hlarge)

theorem apply_of_refuses (settings : Settings) (h : step.Refuses refusal) :
    step.apply settings = .error refusal := by
  cases h with
  | @scale _ request scale hrequest hscale hlarge =>
      have hfollowing : (settings.options.following request).scale = scale := by
        rw [Options.following, hscale, Option.getD_some]
      rw [← hfollowing] at hlarge
      rw [apply_of_requests settings hrequest, Options.check_eq_error_iff.2 ⟨hlarge, rfl⟩,
        hfollowing]
      rfl
  | malformed hnone =>
      rw [apply, Settings.load, readOptions_of_not_gives hnone]
      rfl

/-- **A step succeeds exactly if it is accepted**, and changes what it asks for. -/
theorem apply_eq_ok_iff :
    step.apply settings = .ok next ↔
      ∃ request, step.Accepts request ∧ next.options = settings.options.following request := by
  constructor
  · intro h
    rcases step.accepts_or_refuses with ⟨request, hrequest⟩ | ⟨refusal, hrefusal⟩
    · obtain ⟨made, hmade, hoptions⟩ := apply_of_accepts settings hrequest
      rw [h] at hmade
      cases hmade
      exact ⟨request, hrequest, hoptions⟩
    · rw [apply_of_refuses settings hrefusal] at h
      cases h
  · rintro ⟨request, hrequest, hnext⟩
    rw [apply_of_requests settings hrequest.1, Options.check_eq_ok_iff.2 hnext]
    rfl

/-- **A step is refused exactly if it asks for too many places or loads malformed data.** -/
theorem apply_eq_error_iff : step.apply settings = .error refusal ↔ step.Refuses refusal := by
  constructor
  · intro h
    rcases step.accepts_or_refuses with ⟨request, hrequest⟩ | ⟨other, hother⟩
    · obtain ⟨made, hmade, -⟩ := apply_of_accepts settings hrequest
      rw [h] at hmade
      cases hmade
    · rw [apply_of_refuses settings hother] at h
      cases h
      exact hother
  · exact apply_of_refuses settings

theorem settle_of_ok (h : step.apply settings = .ok next) : step.settle settings = next := by
  rw [settle, h]

theorem settle_of_error (h : step.apply settings = .error refusal) :
    step.settle settings = settings := by
  rw [settle, h]

/-- **An accepted step changes just what it asks for.** -/
theorem options_settle (settings : Settings) (h : step.Accepts request) :
    (step.settle settings).options = settings.options.following request := by
  obtain ⟨next, happly, hnext⟩ := apply_of_accepts settings h
  rw [settle_of_ok happly, hnext]

end Step

/-! ## Runs -/

def after (settings : Settings) (steps : List Step) : Settings :=
  steps.foldl Step.settle settings

section
variable {α : Type} {pick : Request → Option α} {start next a : α} {step : Step}
  {steps : List Step}

/-- The value that the last of the accepted steps to ask for an option has asked for, or the one at
the start if none of them asks for it. -/
inductive IsLatest (pick : Request → Option α) (start : α) (steps : List Step) : α → Prop
  | never : (∀ step ∈ steps, ∀ request, step.Accepts request → pick request = none) →
      IsLatest pick start steps start
  | asked {before later : List Step} {step : Step} {request : Request} {a : α} :
      steps = before ++ step :: later → step.Accepts request → pick request = some a →
      (∀ other ∈ later, ∀ request, other.Accepts request → pick request = none) →
      IsLatest pick start steps a

theorem IsLatest.cons (h : IsLatest pick next steps a) (hstep : IsLatest pick start [step] next) :
    IsLatest pick start (step :: steps) a := by
  cases h with
  | @asked before later _ _ _ hsplit haccepts hpick hlater =>
      have hsplit : step :: steps = (step :: before) ++ _ :: later := congrArg (step :: ·) hsplit
      exact .asked hsplit haccepts hpick hlater
  | never hnever =>
      cases hstep with
      | never hnone =>
          have hfirst := List.forall_mem_singleton.1 hnone
          exact .never (List.forall_mem_cons.2 ⟨hfirst, hnever⟩)
      | @asked before later other request _ hsplit haccepts hpick hlater =>
          obtain ⟨rfl, rfl, rfl⟩ : before = [] ∧ step = other ∧ later = [] := by
            cases before with
            | nil => cases hsplit; exact ⟨rfl, rfl, rfl⟩
            | cons first before => simp at hsplit
          exact .asked (List.nil_append _).symm haccepts hpick hnever

/-- **An option after one step.** -/
theorem isLatest_settle (get : Options → α)
    (hget : ∀ options request, get (options.following request) = (pick request).getD (get options))
    (settings : Settings) (step : Step) :
    IsLatest pick (get settings.options) [step] (get (step.settle settings).options) := by
  rcases step.accepts_or_refuses with ⟨request, hrequest⟩ | ⟨refusal, hrefusal⟩
  · rw [step.options_settle settings hrequest, hget]
    cases hpick : pick request with
    | some a => exact .asked (List.nil_append _).symm hrequest hpick nofun
    | none =>
        refine .never (List.forall_mem_singleton.2 fun other hother => ?_)
        rwa [← hrequest.1.unique hother.1]
  · have hrefused := step.apply_of_refuses settings hrefusal
    rw [step.settle_of_error hrefused]
    refine .never (List.forall_mem_singleton.2 fun request hrequest => ?_)
    obtain ⟨next, happly, -⟩ := step.apply_of_accepts settings hrequest
    rw [hrefused] at happly
    cases happly

/-- **After a run an option has the value that was asked for last.** -/
theorem isLatest_after (get : Options → α)
    (hget : ∀ options request, get (options.following request) = (pick request).getD (get options))
    (settings : Settings) (steps : List Step) :
    IsLatest pick (get settings.options) steps (get (settings.after steps).options) := by
  induction steps generalizing settings with
  | nil => exact .never nofun
  | cons step steps ih =>
      exact (ih (step.settle settings)).cons (isLatest_settle get hget settings step)

end

variable (settings : Settings) (steps : List Step) (step : Step)

theorem after_concat : settings.after (steps ++ [step]) = step.settle (settings.after steps) := by
  rw [after, List.foldl_append]
  rfl

/-- **The outcome of a step is that of the step on what the run before it has left behind.** -/
theorem outcomes_concat :
    outcomes settings (steps ++ [step]) =
      outcomes settings steps ++ [step.apply (settings.after steps)] := by
  induction steps generalizing settings with
  | nil => rfl
  | cons first steps ih =>
      rw [List.cons_append, outcomes, ih (first.settle settings)]
      rfl

end GCode.Settings
