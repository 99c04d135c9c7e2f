import GCode.Settings.Record

/-! # Building settings step by step

Settings are built by a run of steps. A step that is refused leaves the settings that it started
from, and the run goes on.
-/

namespace GCode.Settings

/-- One operation on settings. -/
inductive Step
  | reset
  | make (letterCase : LetterCase) (scale : Nat) (apostropheEscape : Bool)
  | setLetterCase (letterCase : LetterCase)
  | setScale (scale : Nat)
  | setApostropheEscape (apostropheEscape : Bool)
  | load (record : Value)

def Step.apply (settings : Settings) : Step → Except Refusal Settings
  | .reset => .ok default
  | .make letterCase scale apostropheEscape =>
      (Settings.make letterCase scale apostropheEscape).mapError .invalid
  | .setLetterCase letterCase => .ok (settings.withLetterCase letterCase)
  | .setScale scale => (settings.withScale scale).mapError .invalid
  | .setApostropheEscape apostropheEscape => .ok (settings.withApostropheEscape apostropheEscape)
  | .load record => Settings.load record

def Step.settle (settings : Settings) (step : Step) : Settings :=
  match step.apply settings with
  | .ok next => next
  | .error _ => settings

/-- The outcome of every step of a run. -/
def outcomes (settings : Settings) : List Step → List (Except Refusal Settings)
  | [] => []
  | step :: steps => step.apply settings :: outcomes (step.settle settings) steps

end GCode.Settings
