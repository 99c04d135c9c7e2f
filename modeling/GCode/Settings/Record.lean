import GCode.Settings.Basic

/-! # Settings as a record of loose data

Settings are stored as a record of named values and read back from any loose data. An option that
the record leaves out keeps its default and a name that is no option is passed over; an option of
the wrong shape or given twice, or a number of places that is too large, is refused. A list gives
the options without their names, in order, and may stop short.
-/

namespace GCode

/-- Loose data: what a record and its fields can hold. -/
inductive Value
  | null
  | bool (b : Bool)
  | integer (n : Int)
  /-- A number written with a point: `mantissa` divided by the given power of ten. -/
  | fraction (mantissa : Int) (places : Nat)
  | text (s : String)
  | list (items : List Value)
  | record (fields : List (String × Value))
  deriving Inhabited, Repr

namespace Settings

inductive Refusal
  /-- The data has not the shape of settings. -/
  | malformed
  | invalid (error : Error)
  deriving DecidableEq, Repr

def caseName : LetterCase → String
  | .keep => "DoNotTouch"
  | .upper => "ToUppercase"
  | .lower => "ToLowercase"

def caseOfName? (name : String) : Option LetterCase :=
  [LetterCase.keep, .upper, .lower].find? (caseName · = name)

/-- A letter case is given by its name alone, or as the only name of a record that holds nothing
under it. -/
def caseOfValue? : Value → Option LetterCase
  | .text name => caseOfName? name
  | .record [(name, .null)] => caseOfName? name
  | _ => none

def scaleOfValue? : Value → Option Nat
  | .integer n => if 0 ≤ n ∧ n < 256 then some n.toNat else none
  | _ => none

def switchOfValue? : Value → Option Bool
  | .bool b => some b
  | _ => none

def caseField : String := "case_normalization"

def scaleField : String := "fractional_scale"

def escapeField : String := "single_quote_escape"

/-- The names of all options, in the order in which a list gives them. -/
def optionNames : List String := [caseField, scaleField, escapeField]

/-- Reads an option of a record, or takes the default if the record has none of that name. A name
that a record has twice is no option. -/
def option {α : Type} (fields : List (String × Value)) (name : String) (read? : Value → Option α)
    (default : α) : Except Refusal α :=
  match fields.filter (·.1 = name) with
  | [] => .ok default
  | [(_, value)] =>
      match read? value with
      | some a => .ok a
      | none => .error .malformed
  | _ => .error .malformed

/-- The options that settings are made with, not checked yet. -/
structure Options where
  letterCase : LetterCase
  scale : Nat
  apostropheEscape : Bool
  deriving DecidableEq, Repr

def options (settings : Settings) : Options :=
  ⟨settings.letterCase, settings.scale, settings.apostropheEscape⟩

def Options.check (options : Options) : Except Error Settings :=
  make options.letterCase options.scale options.apostropheEscape

def optionsOf (fields : List (String × Value)) : Except Refusal Options := do
  let letterCase ← option fields caseField caseOfValue? (default : Settings).letterCase
  let scale ← option fields scaleField scaleOfValue? (default : Settings).scale
  let apostropheEscape ←
    option fields escapeField switchOfValue? (default : Settings).apostropheEscape
  pure { letterCase, scale, apostropheEscape }

/-- The options of loose data: of a record by their names, of a list in their order. -/
def readOptions : Value → Except Refusal Options
  | .record fields => optionsOf fields
  | .list items =>
      if items.length ≤ optionNames.length then optionsOf (optionNames.zip items)
      else .error .malformed
  | _ => .error .malformed

def load (data : Value) : Except Refusal Settings := do
  let options ← readOptions data
  options.check.mapError .invalid

def save (settings : Settings) : Value :=
  .record
    [ (caseField, .text (caseName settings.letterCase)),
      (scaleField, .integer settings.scale),
      (escapeField, .bool settings.apostropheEscape) ]

end Settings
end GCode
