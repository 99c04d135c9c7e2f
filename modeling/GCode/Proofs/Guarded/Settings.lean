import GCode.Proofs.Guarded.Stored
import GCode.Proofs.Settings.Building

/-!
# Settings with their constants

Settings can be stored with the constants that scaling needs: the power of ten and the largest whole
number that is in range once scaled. Whatever makes settings then has to compute both anew, each in
a word that may be too small for it. It never is, and no step leaves constants behind that belong to
another number of places, because every step computes them from the options that it ends with.

* `StoredSettings.IsConsistent`: the constants belong to the number of places.
* `StoredSettings.apply_ofSettings`, `storedOutcomes_ofSettings`: a step on stored settings, and a
  run of steps.
* `Settings.outcomes_of_steps`: a run of steps, from any settings.
-/

namespace GCode

namespace Guarded

structure StoredSettings where
  letterCase : LetterCase
  scale : Nat
  apostropheEscape : Bool
  /-- The power of ten by which numbers are scaled. -/
  scaleFactor : Int32
  /-- The largest whole number that is still in range once scaled. -/
  maxScalable : Int32
  deriving DecidableEq, Repr

def storeOptions (options : Settings.Options) : Except Fault StoredSettings := do
  let scaleFactor ← int32 (10 ^ options.scale)
  let maxScalable ← int32 (2147483647 / scaleFactor.toInt)
  pure ⟨options.letterCase, options.scale, options.apostropheEscape, scaleFactor, maxScalable⟩

def checkOptions (options : Settings.Options) :
    Except Fault (Except Settings.Refusal StoredSettings) :=
  if maxScale < options.scale then pure (.error (.invalid (.invalidScale options.scale)))
  else do
    let stored ← storeOptions options
    pure (.ok stored)

namespace StoredSettings

def ofSettings (settings : Settings) : StoredSettings :=
  ⟨settings.letterCase, settings.scale, settings.apostropheEscape, settings.scaleFactor,
    settings.maxScalable⟩

/-- The constants belong to the number of places, which is not too large. A number is at most the
largest one exactly if its product with the power of ten is in range. -/
structure IsConsistent (stored : StoredSettings) : Prop where
  scale_le : stored.scale ≤ 5
  scaleFactor_eq : stored.scaleFactor.toInt = 10 ^ stored.scale
  maxScalable_eq : stored.maxScalable.toInt = 2147483647 / stored.scaleFactor.toInt
  le_maxScalable_iff : ∀ n : Int,
    n ≤ stored.maxScalable.toInt ↔ n * stored.scaleFactor.toInt ≤ 2147483647

def apply (stored : StoredSettings) :
    Settings.Step → Except Fault (Except Settings.Refusal StoredSettings)
  | .reset => (storeOptions ⟨.upper, 0, false⟩).map .ok
  | .make letterCase scale apostropheEscape => checkOptions ⟨letterCase, scale, apostropheEscape⟩
  | .setLetterCase letterCase =>
      (storeOptions ⟨letterCase, stored.scale, stored.apostropheEscape⟩).map .ok
  | .setScale scale => checkOptions ⟨stored.letterCase, scale, stored.apostropheEscape⟩
  | .setApostropheEscape apostropheEscape =>
      (storeOptions ⟨stored.letterCase, stored.scale, apostropheEscape⟩).map .ok
  | .load data =>
      match Settings.readOptions data with
      | .ok options => checkOptions options
      | .error refusal => pure (.error refusal)

end StoredSettings

def storedOutcomes (stored : StoredSettings) :
    List Settings.Step → Except Fault (List (Except Settings.Refusal StoredSettings))
  | [] => pure []
  | step :: steps => do
      let outcome ← stored.apply step
      let outcomes ← storedOutcomes (outcome.toOption.getD stored) steps
      pure (outcome :: outcomes)

variable {options : Settings.Options} (settings : Settings)

/-! ## Storing options -/

/-- **The constants of settings fit their words.** -/
theorem storeOptions_eq (h : settings.options = options) :
    storeOptions options = .ok (.ofSettings settings) := by
  have hscale : options.scale = settings.scale := by
    rw [← h]
    rfl
  rw [storeOptions, hscale, int32_scaleFactor, ok_bind, int32_maxScalable, ← h]
  rfl

theorem checkOptions_eq (options : Settings.Options) :
    checkOptions options =
      .ok ((options.check.mapError .invalid).map .ofSettings) := by
  cases hcheck : options.check with
  | ok settings =>
      have hoptions := Settings.Options.check_eq_ok_iff.1 hcheck
      have hscale : ¬maxScale < options.scale := by
        rw [← hoptions]
        exact Nat.not_lt_of_le settings.scale_le
      rw [checkOptions, if_neg hscale, storeOptions_eq settings hoptions]
      rfl
  | error error =>
      obtain ⟨hscale, rfl⟩ := Settings.Options.check_eq_error_iff.1 hcheck
      rw [checkOptions, if_pos hscale]
      rfl

namespace StoredSettings

/-- **The constants of settings belong to their number of places.** -/
theorem isConsistent_ofSettings : (ofSettings settings).IsConsistent := by
  have hfactor : settings.scaleFactor.toInt = 10 ^ settings.scale := by
    rw [settings.toInt_scaleFactor, Int.natCast_pow]
    rfl
  have hmax : settings.maxScalable.toInt = 2147483647 / settings.scaleFactor.toInt := by
    rw [settings.toInt_maxScalable, settings.toInt_scaleFactor, Int.natCast_ediv]
    rfl
  have hpos : 0 < settings.scaleFactor.toInt := by
    rw [hfactor]
    exact Int.pow_pos (by decide)
  refine ⟨settings.scale_le, hfactor, hmax, fun n => ?_⟩
  show n ≤ settings.maxScalable.toInt ↔ n * settings.scaleFactor.toInt ≤ 2147483647
  rw [hmax, Int.le_ediv_iff_mul_le hpos]

/-! ## Steps and runs -/

/-- **A step on stored settings goes through**, and ends as the step on the settings. -/
theorem apply_ofSettings (step : Settings.Step) :
    (ofSettings settings).apply step = .ok ((step.apply settings).map ofSettings) := by
  cases step with
  | reset => exact congrArg (Except.map Except.ok) (storeOptions_eq default rfl)
  | make letterCase scale apostropheEscape => exact checkOptions_eq _
  | setLetterCase letterCase =>
      exact congrArg (Except.map Except.ok)
        (storeOptions_eq (settings.withLetterCase letterCase) rfl)
  | setScale scale => exact checkOptions_eq _
  | setApostropheEscape apostropheEscape =>
      exact congrArg (Except.map Except.ok)
        (storeOptions_eq (settings.withApostropheEscape apostropheEscape) rfl)
  | load data =>
      cases hread : Settings.readOptions data with
      | ok options =>
          simp only [apply, hread, checkOptions_eq, Settings.Step.apply, Settings.load]
          rfl
      | error refusal =>
          simp only [apply, hread, Settings.Step.apply, Settings.load]
          rfl

theorem getD_toOption_apply (step : Settings.Step) :
    ((step.apply settings).map ofSettings).toOption.getD (ofSettings settings) =
      ofSettings (step.settle settings) := by
  rw [Settings.Step.settle]
  cases step.apply settings <;> rfl

end StoredSettings

/-- **A run of steps on stored settings goes through.** -/
theorem storedOutcomes_ofSettings (steps : List Settings.Step) :
    storedOutcomes (.ofSettings settings) steps =
      .ok ((Settings.outcomes settings steps).map (·.map .ofSettings)) := by
  induction steps generalizing settings with
  | nil => rfl
  | cons step steps ih =>
      rw [storedOutcomes, StoredSettings.apply_ofSettings, ok_bind,
        StoredSettings.getD_toOption_apply, ih (step.settle settings)]
      rfl

end Guarded

namespace Settings

open Guarded (StoredSettings storedOutcomes)

/-- **What a run of steps makes of settings**, from any settings on and after any number of steps. A
further step is refused exactly if it asks for more than five places or loads data that gives no
options, and then changes nothing; otherwise it changes just the options that it asks for. Every
option has the value that was asked for last by a step that was not refused. The settings are loaded
again from what they are saved as. Stored with their constants, they go through the same steps
without a fault, and the constants always belong to the number of places. -/
theorem outcomes_of_steps (start : Settings) (steps : List Step) :
    (∀ step : Step,
      outcomes start (steps ++ [step]) =
          outcomes start steps ++ [step.apply (start.after steps)] ∧
        (∀ refusal, step.apply (start.after steps) = .error refusal ↔ step.Refuses refusal) ∧
        (∀ next, step.apply (start.after steps) = .ok next ↔
          ∃ request, step.Accepts request ∧
            next.options = (start.after steps).options.following request) ∧
        (∀ refusal, step.apply (start.after steps) = .error refusal →
          start.after (steps ++ [step]) = start.after steps) ∧
        ∀ next, step.apply (start.after steps) = .ok next →
          start.after (steps ++ [step]) = next) ∧
    IsLatest Request.letterCase start.letterCase steps (start.after steps).letterCase ∧
    IsLatest Request.scale start.scale steps (start.after steps).scale ∧
    IsLatest Request.apostropheEscape start.apostropheEscape steps
      (start.after steps).apostropheEscape ∧
    load (start.after steps).save = .ok (start.after steps) ∧
    storedOutcomes (.ofSettings start) steps =
      .ok ((outcomes start steps).map (·.map .ofSettings)) ∧
    (StoredSettings.ofSettings (start.after steps)).IsConsistent := by
  refine ⟨fun step => ⟨outcomes_concat start steps step, fun refusal => Step.apply_eq_error_iff,
    fun next => Step.apply_eq_ok_iff, fun refusal h => ?_, fun next h => ?_⟩,
    isLatest_after Options.letterCase (fun _ _ => rfl) start steps,
    isLatest_after Options.scale (fun _ _ => rfl) start steps,
    isLatest_after Options.apostropheEscape (fun _ _ => rfl) start steps, load_save _,
    Guarded.storedOutcomes_ofSettings start steps, StoredSettings.isConsistent_ofSettings _⟩
  · rw [after_concat, Step.settle_of_error h]
  · rw [after_concat, Step.settle_of_ok h]

/-- Steps that are accepted and refused in turn: too many places, a record with a name that is no
option, one with an option that is there twice, and one with nothing where a switch belongs. -/
def mixedSteps : List Step :=
  [ .make .keep 6 true,
    .load (.record [("spindle", .list [.null]), (scaleField, .integer 3)]),
    .setApostropheEscape true,
    .load (.record [(scaleField, .integer 2), (scaleField, .integer 2)]),
    .setLetterCase .lower,
    .load (.record [(escapeField, .null)]) ]

theorem outcomes_of_steps_mixed :
    ((default : Settings).after mixedSteps).options = ⟨.lower, 3, true⟩ ∧
      (Step.setScale 6).apply ((default : Settings).after mixedSteps) =
        .error (.invalid (.invalidScale 6)) ∧
      (default : Settings).after (mixedSteps ++ [.setScale 6]) =
        (default : Settings).after mixedSteps ∧
      IsLatest Request.scale 0 mixedSteps 3 ∧
      storedOutcomes (.ofSettings default) mixedSteps =
        .ok ((outcomes default mixedSteps).map (·.map .ofSettings)) ∧
      (StoredSettings.ofSettings ((default : Settings).after mixedSteps)).IsConsistent := by
  have hafter : ((default : Settings).after mixedSteps).options = ⟨.lower, 3, true⟩ := by decide
  obtain ⟨hstep, -, hscale, -, -, hstored, hconsistent⟩ := outcomes_of_steps default mixedSteps
  obtain ⟨-, hrefused, -, hkept, -⟩ := hstep (.setScale 6)
  have herror := (hrefused _).2 (.scale (.setScale 6) rfl (by decide))
  exact ⟨hafter, herror, hkept _ herror, hscale, hstored, hconsistent⟩

end Settings
end GCode
