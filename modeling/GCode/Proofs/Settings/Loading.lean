import GCode.Settings.Record

/-!
# The shape of stored settings

Loose data gives settings if it is a record that has each option at most once, and in the right
shape. Options that it leaves out have their defaults, and whatever stands under other names makes
no difference. A list stands for the record that has its items under the names of the options.

* `Settings.Gives`: the options that loose data gives.
* `Settings.readOptions_eq_ok_iff`, `Settings.readOptions_of_not_gives`: exactly those are read, and
  data that gives none is malformed.
* `Settings.Options.check_eq_ok_iff`, `Settings.Options.check_eq_error_iff`: options make settings
  unless the number of places is too large.
* `Settings.load_save`: settings are loaded again from the record that stands for them.
-/

namespace GCode.Settings

/-! ## The shape of an option -/

/-- A letter case is given by its name, alone or over nothing. -/
inductive CaseRule : Value → LetterCase → Prop
  | name (letterCase : LetterCase) : CaseRule (.text (caseName letterCase)) letterCase
  | variant (letterCase : LetterCase) :
      CaseRule (.record [(caseName letterCase, .null)]) letterCase

inductive ScaleRule : Value → Nat → Prop
  | byte {scale : Nat} : scale < 256 → ScaleRule (.integer scale) scale

inductive SwitchRule : Value → Bool → Prop
  | bool (isOn : Bool) : SwitchRule (.bool isOn) isOn

section
variable {α : Type}

/-- An option that a record leaves out has its default. One that it has is there once, in the right
shape. -/
inductive OptionRule (rule : Value → α → Prop) (name : String) (default : α)
    (fields : List (String × Value)) : α → Prop
  | absent : (∀ field ∈ fields, field.1 ≠ name) → OptionRule rule name default fields default
  | given {before after : List (String × Value)} {value : Value} {a : α} :
      fields = before ++ (name, value) :: after → (∀ field ∈ before, field.1 ≠ name) →
      (∀ field ∈ after, field.1 ≠ name) → rule value a → OptionRule rule name default fields a

end

structure RecordRule (fields : List (String × Value)) (options : Options) : Prop where
  letterCase : OptionRule CaseRule caseField .upper fields options.letterCase
  scale : OptionRule ScaleRule scaleField 0 fields options.scale
  apostropheEscape : OptionRule SwitchRule escapeField false fields options.apostropheEscape

inductive Gives : Value → Options → Prop
  | record {fields : List (String × Value)} {options : Options} :
      RecordRule fields options → Gives (.record fields) options
  | list {items : List Value} {options : Options} : items.length ≤ 3 →
      RecordRule (optionNames.zip items) options → Gives (.list items) options

/-! ## One reading after another -/

theorem bind_eq_ok_iff {α β : Type} {x : Except Refusal α} {f : α → Except Refusal β} {b : β} :
    x >>= f = .ok b ↔ ∃ a, x = .ok a ∧ f a = .ok b := by
  cases x with
  | ok a => exact ⟨fun h => ⟨a, rfl, h⟩, fun ⟨_, ha, h⟩ => by cases ha; exact h⟩
  | error refusal => exact ⟨nofun, fun ⟨_, ha, _⟩ => nomatch ha⟩

/-- A reading that can only be refused for the shape of the data. -/
def OnlyMalformed {α : Type} (x : Except Refusal α) : Prop :=
  ∀ refusal, x = .error refusal → refusal = .malformed

theorem onlyMalformed_ok {α : Type} (a : α) : OnlyMalformed (.ok a) := nofun

theorem onlyMalformed_error {α : Type} : OnlyMalformed (.error .malformed : Except Refusal α) := by
  intro refusal h
  cases h
  rfl

theorem OnlyMalformed.bind {α β : Type} {x : Except Refusal α} {f : α → Except Refusal β}
    (hx : OnlyMalformed x) (hf : ∀ a, OnlyMalformed (f a)) : OnlyMalformed (x >>= f) := by
  cases x with
  | ok a => exact hf a
  | error other =>
      intro refusal h
      cases h
      exact hx other rfl

/-! ## Reading an option -/

theorem caseOfName?_eq_some_iff {name : String} {letterCase : LetterCase} :
    caseOfName? name = some letterCase ↔ name = caseName letterCase := by
  constructor
  · intro h
    have hname := List.find?_some h
    exact (of_decide_eq_true hname).symm
  · rintro rfl
    cases letterCase <;> decide

theorem caseOfValue?_eq_some_iff {value : Value} {letterCase : LetterCase} :
    caseOfValue? value = some letterCase ↔ CaseRule value letterCase := by
  constructor
  · intro h
    unfold caseOfValue? at h
    split at h
    next =>
      obtain rfl := caseOfName?_eq_some_iff.1 h
      exact .name letterCase
    next =>
      obtain rfl := caseOfName?_eq_some_iff.1 h
      exact .variant letterCase
    next => cases h
  · rintro (_ | _)
    · exact caseOfName?_eq_some_iff.2 rfl
    · exact caseOfName?_eq_some_iff.2 rfl

theorem scaleOfValue?_eq_some_iff {value : Value} {scale : Nat} :
    scaleOfValue? value = some scale ↔ ScaleRule value scale := by
  constructor
  · intro h
    unfold scaleOfValue? at h
    split at h
    next n =>
      split at h
      next hrange =>
        cases h
        obtain ⟨m, rfl⟩ := Int.eq_ofNat_of_zero_le hrange.1
        exact .byte (by omega)
      next => cases h
    next => cases h
  · rintro ⟨hlt⟩
    have hrange : 0 ≤ (scale : Int) ∧ (scale : Int) < 256 := by omega
    rw [scaleOfValue?, if_pos hrange, Int.toNat_natCast]

theorem switchOfValue?_eq_some_iff {value : Value} {isOn : Bool} :
    switchOfValue? value = some isOn ↔ SwitchRule value isOn := by
  constructor
  · intro h
    unfold switchOfValue? at h
    split at h
    next =>
      cases h
      exact .bool isOn
    next => cases h
  · rintro ⟨⟩
    rfl

section
variable {α : Type} {fields : List (String × Value)} {name : String} {read? : Value → Option α}
  {default : α}

theorem onlyMalformed_option : OnlyMalformed (option fields name read? default) := by
  intro refusal h
  unfold option at h
  split at h
  · cases h
  · split at h
    · cases h
    · cases h
      rfl
  · cases h
    rfl

/-- **An option is read exactly if the record gives it.** -/
theorem option_eq_ok_iff {rule : Value → α → Prop}
    (hread : ∀ value a, read? value = some a ↔ rule value a) {a : α} :
    option fields name read? default = .ok a ↔ OptionRule rule name default fields a := by
  constructor
  · intro h
    unfold option at h
    split at h
    next hnone =>
      cases h
      refine .absent fun field hfield hname => ?_
      exact List.filter_eq_nil_iff.1 hnone field hfield (decide_eq_true hname)
    next given value hone =>
      split at h
      next b hb =>
        cases h
        obtain ⟨before, after, rfl, hbefore, hname, hafter⟩ := List.filter_eq_cons_iff.1 hone
        obtain rfl : given = name := of_decide_eq_true hname
        refine .given rfl ?_ ?_ ((hread value a).1 hb)
        · intro field hfield he
          exact hbefore field hfield (decide_eq_true he)
        · intro field hfield he
          exact List.filter_eq_nil_iff.1 hafter field hfield (decide_eq_true he)
      next => cases h
    next => cases h
  · intro h
    -- A part of the fields without the name has nothing to read.
    have hrest {part : List (String × Value)} (hpart : ∀ field ∈ part, field.1 ≠ name) :
        part.filter (·.1 = name) = [] :=
      List.filter_eq_nil_iff.2 fun field hfield he => hpart field hfield (of_decide_eq_true he)
    cases h with
    | absent hnone => rw [option, hrest hnone]
    | @given before after value a hfields hbefore hafter hvalue =>
        have hone : fields.filter (·.1 = name) = [(name, value)] := by
          rw [hfields, List.filter_append, hrest hbefore, List.filter_cons_of_pos (by simp),
            hrest hafter, List.nil_append]
        simp only [option, hone, (hread value a).2 hvalue]

end

/-! ## Reading all options -/

section
variable {fields : List (String × Value)} {options : Options} {data : Value}

/-- **The options of a record are read exactly if it gives them.** -/
theorem optionsOf_eq_ok_iff : optionsOf fields = .ok options ↔ RecordRule fields options := by
  have hcase (letterCase : LetterCase) :
      option fields caseField caseOfValue? (default : Settings).letterCase = .ok letterCase ↔
        OptionRule CaseRule caseField .upper fields letterCase :=
    option_eq_ok_iff fun _ _ => caseOfValue?_eq_some_iff
  have hscale (scale : Nat) :
      option fields scaleField scaleOfValue? (default : Settings).scale = .ok scale ↔
        OptionRule ScaleRule scaleField 0 fields scale :=
    option_eq_ok_iff fun _ _ => scaleOfValue?_eq_some_iff
  have hswitch (isOn : Bool) :
      option fields escapeField switchOfValue? (default : Settings).apostropheEscape = .ok isOn ↔
        OptionRule SwitchRule escapeField false fields isOn :=
    option_eq_ok_iff fun _ _ => switchOfValue?_eq_some_iff
  simp only [optionsOf, bind_eq_ok_iff, hcase, hscale, hswitch]
  constructor
  · rintro ⟨letterCase, hc, scale, hs, isOn, he, ho⟩
    cases ho
    exact ⟨hc, hs, he⟩
  · rintro ⟨hc, hs, he⟩
    exact ⟨_, hc, _, hs, _, he, rfl⟩

theorem onlyMalformed_optionsOf : OnlyMalformed (optionsOf fields) :=
  onlyMalformed_option.bind fun _ =>
    onlyMalformed_option.bind fun _ =>
      onlyMalformed_option.bind fun _ => onlyMalformed_ok _

theorem onlyMalformed_readOptions : OnlyMalformed (readOptions data) := by
  unfold readOptions
  split
  · exact onlyMalformed_optionsOf
  · split
    · exact onlyMalformed_optionsOf
    · exact onlyMalformed_error
  · exact onlyMalformed_error

/-- **The options of loose data are read exactly if it gives them.** -/
theorem readOptions_eq_ok_iff : readOptions data = .ok options ↔ Gives data options := by
  constructor
  · intro h
    unfold readOptions at h
    split at h
    next => exact .record (optionsOf_eq_ok_iff.1 h)
    next =>
      split at h
      next hlength => exact .list hlength (optionsOf_eq_ok_iff.1 h)
      next => cases h
    next => cases h
  · intro h
    cases h with
    | record hr => exact optionsOf_eq_ok_iff.2 hr
    | @list items _ hlength hr =>
        have hle : items.length ≤ optionNames.length := hlength
        rw [readOptions, if_pos hle]
        exact optionsOf_eq_ok_iff.2 hr

/-- **Loose data that gives no options is malformed.** -/
theorem readOptions_of_not_gives (h : ∀ options, ¬Gives data options) :
    readOptions data = .error .malformed := by
  cases hread : readOptions data with
  | ok options => exact absurd (readOptions_eq_ok_iff.1 hread) (h options)
  | error refusal => rw [onlyMalformed_readOptions refusal hread]

theorem Gives.unique {other : Options} (h : Gives data options) (ho : Gives data other) :
    options = other := by
  have hread := readOptions_eq_ok_iff.2 h
  rw [readOptions_eq_ok_iff.2 ho] at hread
  exact (Except.ok.inj hread).symm

/-! ## Checking options -/

variable {settings : Settings}

/-- **Options make settings exactly if the number of places is not too large.** -/
theorem Options.check_eq_ok_iff : options.check = .ok settings ↔ settings.options = options := by
  obtain ⟨letterCase, scale, apostropheEscape⟩ := options
  constructor
  · intro h
    unfold check make at h
    split at h
    · cases h
      rfl
    · cases h
  · intro h
    cases h
    exact dif_pos settings.scale_le

theorem Options.check_eq_error_iff {error : Error} :
    options.check = .error error ↔
      maxScale < options.scale ∧ error = .invalidScale options.scale := by
  unfold check make
  split
  next hle => exact iff_of_false nofun fun h => absurd h.1 (Nat.not_lt_of_le hle)
  next hlt =>
    constructor
    · intro h
      cases h
      exact ⟨Nat.lt_of_not_le hlt, rfl⟩
    · rintro ⟨-, rfl⟩
      rfl

/-! ## Loading what was saved -/

theorem gives_save (settings : Settings) : Gives settings.save settings.options := by
  have hscale : settings.scale < 256 := Nat.lt_of_le_of_lt settings.scale_le (by decide)
  refine .record ⟨?_, ?_, ?_⟩
  · refine .given (show _ = [] ++ _ :: [_, _] from rfl) nofun ?_ (.name settings.letterCase)
    simp [caseField, scaleField, escapeField]
  · refine .given (show _ = [_] ++ _ :: [_] from rfl) ?_ ?_ (.byte hscale)
    · simp [caseField, scaleField]
    · simp [escapeField, scaleField]
  · refine .given (show _ = [_, _] ++ _ :: [] from rfl) ?_ nofun (.bool settings.apostropheEscape)
    simp [caseField, scaleField, escapeField]

/-- **Settings are loaded again from the record that stands for them.** -/
theorem load_save (settings : Settings) : load settings.save = .ok settings := by
  rw [load, readOptions_eq_ok_iff.2 (gives_save settings)]
  show settings.options.check.mapError _ = _
  rw [Options.check_eq_ok_iff.2 rfl]
  rfl

end
end GCode.Settings
