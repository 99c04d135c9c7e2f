import GCode.Proofs.Command.Grammar
import GCode.Proofs.Command.Iteration
import GCode.Proofs.Field.Settings

/-!
# Commands under other settings

Settings that cut a line alike (`Settings.CutsAlike`) find the same command on it: they skip the
same comment, find a code or none, and cut the text behind it into the same fields, each of them
under its own settings.

* `Cursor.Cut.under`: a cut of a text, under other settings.
* `Command.rel_read?`: what holds of every field and code under other settings holds of what is read
  from a line.
* `Command.cut_under_settings`: letter case and scale do not change how a line is cut, and neither
  does what apostrophes do if there are none.
-/

namespace GCode

open Text

/-! ## What is skipped -/

theorem Comment.skip_subset (line : List Char) : skip line ⊆ line := by
  unfold skip
  split
  next comment tail hr =>
    obtain ⟨-, -, hline⟩ := of_read? hr
    rw [← hline]
    exact List.subset_append_right _ _
  next => exact List.Subset.refl line

theorem Command.opening_subset (line : List Char) : opening line ⊆ line :=
  fun _ hm => dropBlanks_subset _ (Comment.skip_subset _ (dropBlanks_subset _ hm))

/-! ## Fields one after another -/

variable {settings other : Settings} {line text gap rest : List Char}
  {sameField : Field → Field → Prop} {sameCode : Code → Code → Prop}

namespace Cursor.Cut

variable {fields : List PlacedField}

/-- **A cut is a cut under other settings**, of the same text in the same places. -/
theorem under (h : Cut settings text fields gap rest) (hc : settings.CutsAlike other text) :
    Cut other text (fields.map fun placed => ⟨placed.gap, placed.field.under other⟩) gap rest := by
  induction h with
  | done hg hs hr =>
      exact .done hg hs (Field.read?_eq_none_under (hc.mono (List.subset_append_right _ _)) hr)
  | @field gap₁ tail _ _ field _ hg hr _ ih =>
      have hfield : settings.CutsAlike other (field.raw ++ tail) :=
        hc.mono (List.subset_append_right _ _)
      have hread := Field.read?_under hfield hr
      have hraw : (field.under other).raw = field.raw := Field.raw_under
      rw [← hraw] at hread
      have hcut := Cut.field hg hread (ih (hfield.mono (List.subset_append_right _ _)))
      rwa [hraw] at hcut

theorem forall_wellFormed (h : Cut settings text fields gap rest) :
    ∀ placed ∈ fields, placed.field.WellFormed settings ∧ placed.field.raw ⊆ text := by
  induction h with
  | done =>
      intro placed hm
      cases hm
  | @field gap₁ tail _ _ field _ hg hr _ ih =>
      intro placed hm
      rcases List.mem_cons.1 hm with rfl | hm
      · exact ⟨(Field.of_read? hr).1,
          fun c hc => List.mem_append_right gap₁ (List.mem_append_left tail hc)⟩
      · obtain ⟨hw, hsub⟩ := ih placed hm
        exact ⟨hw, fun c hc => List.mem_append_right gap₁ (List.mem_append_right _ (hsub hc))⟩

end Cursor.Cut

/-! ## Fields and commands of a line -/

/-- Settings that cut a line alike read a field from it both or neither, with the same tail. -/
theorem Field.rel_read? (hc : settings.CutsAlike other line)
    (hfield : ∀ field : Field, field.WellFormed settings → settings.CutsAlike other field.raw →
      sameField field (field.under other)) :
    Option.Rel (fun read again => sameField read.1 again.1 ∧ again.2 = read.2)
      (read? settings line) (read? other line) := by
  cases hr : read? settings line with
  | none =>
      rw [read?_eq_none_under hc hr]
      exact .none
  | some r =>
      obtain ⟨field, tail⟩ := r
      have hraw : field.raw ⊆ line := raw_append hr ▸ List.subset_append_left _ _
      rw [read?_under hc hr]
      exact .some ⟨hfield field (of_read? hr).1 (hc.mono hraw), rfl⟩

namespace Command

/-- Two commands with the same text behind their codes and the same cut of it. The codes and the
fields are related one by one. -/
structure Match (sameCode : Code → Code → Prop) (sameField : Field → Field → Prop)
    (command again : Command) : Prop where
  code : sameCode command.code again.code
  body : again.body = command.body
  fields : List.Forall₂ sameField command.fields again.fields
  raws : again.fields.map Field.raw = command.fields.map Field.raw
  remainder : again.remainder = command.remainder

theorem match_under {body : List Char} {code code' : Code} (hc : settings.CutsAlike other body)
    (hcode : sameCode code code')
    (hfield : ∀ field : Field, field.WellFormed settings → settings.CutsAlike other field.raw →
      sameField field (field.under other)) :
    Match sameCode sameField ⟨code, body, settings⟩ ⟨code', body, other⟩ := by
  obtain ⟨fields, gap, rest, hcut⟩ := Cursor.exists_cut settings body
  have hall := hcut.readAll_eq
  have hunder := (hcut.under hc).readAll_eq
  have hfields : Command.fields ⟨code, body, settings⟩ = fields.map PlacedField.field :=
    congrArg Prod.fst hall
  have hagain : Command.fields ⟨code', body, other⟩ =
      fields.map fun placed => placed.field.under other := by
    have hfst := congrArg Prod.fst hunder
    rwa [List.map_map] at hfst
  refine ⟨hcode, rfl, ?_, ?_, ?_⟩
  · rw [hfields, hagain, List.forall₂_map_left_iff, List.forall₂_map_right_iff, List.forall₂_same]
    intro placed hm
    obtain ⟨hw, hsub⟩ := hcut.forall_wellFormed placed hm
    exact hfield placed.field hw (hc.mono hsub)
  · rw [hfields, hagain, List.map_map, List.map_map]
    exact List.map_congr_left fun placed _ => Field.raw_under
  · exact (congrArg (fun r => r.2.remainder) hunder).trans
      (congrArg (fun r => r.2.remainder) hall).symm

/-- **Settings that cut a line alike read a command from it both or neither**, and the commands
match if all fields and codes do. -/
theorem rel_read? (hc : settings.CutsAlike other line)
    (hcode : ∀ field : Field, field.WellFormed settings →
      sameCode field.code (field.under other).code)
    (hfield : ∀ field : Field, field.WellFormed settings → settings.CutsAlike other field.raw →
      sameField field (field.under other)) :
    Option.Rel (Match sameCode sameField) (read? settings line) (read? other line) := by
  have hopening : settings.CutsAlike other (opening line) := hc.mono (opening_subset line)
  cases hf : Field.read? settings (opening line) with
  | none =>
      rw [read?_of_noField hf, read?_of_noField (Field.read?_eq_none_under hopening hf)]
      exact .none
  | some r =>
      obtain ⟨field, tail⟩ := r
      have hw : field.WellFormed settings := (Field.of_read? hf).1
      have hvalid : (field.under other).code.isValid = field.code.isValid :=
        (Field.sameNumber_code_under hw).isValid
      rw [read?_of_field hf, read?_of_field (Field.read?_under hopening hf), hvalid]
      split
      next =>
        have htail : tail ⊆ opening line := Field.raw_append hf ▸ List.subset_append_right _ _
        have hbody : settings.CutsAlike other (dropBlanks tail) :=
          hopening.mono fun c hm => htail (dropBlanks_subset tail hm)
        exact .some (match_under hbody (hcode field hw) hfield)
      next => exact .none

/-- **Letter case and scale do not change how a line is cut.** Settings that agree on apostrophes
read the same field and the same command from a line, or neither does, and only words and scaled
integers differ. On a line without apostrophes it does not matter either what apostrophes do, and
only the kind of a text with escapes tells it. -/
theorem cut_under_settings (settings other : Settings) (line : List Char) :
    (settings.apostropheEscape = other.apostropheEscape →
      Option.Rel (fun read again => Field.Alike settings other read.1 again.1 ∧ again.2 = read.2)
        (Field.read? settings line) (Field.read? other line) ∧
      Option.Rel (Match Code.SameNumber (Field.Alike settings other))
        (read? settings line) (read? other line)) ∧
    (apostrophe ∉ line →
      Option.Rel (fun read again => Field.AlikeButKind read.1 again.1 ∧ again.2 = read.2)
        (Field.read? (settings.withApostropheEscape false) line)
        (Field.read? (settings.withApostropheEscape true) line) ∧
      Option.Rel (Match Eq Field.AlikeButKind)
        (read? (settings.withApostropheEscape false) line)
        (read? (settings.withApostropheEscape true) line)) := by
  constructor
  · intro he
    exact ⟨Field.rel_read? (.inl he) fun _ hw _ => Field.alike_under hw he,
      rel_read? (.inl he) (fun _ hw => Field.sameNumber_code_under hw)
        fun _ hw _ => Field.alike_under hw he⟩
  · intro hn
    -- the settings differ, so it is the line that has no apostrophe
    have hne : ¬(settings.withApostropheEscape false).apostropheEscape =
        (settings.withApostropheEscape true).apostropheEscape := Bool.false_ne_true
    have hcase : (settings.withApostropheEscape false).letterCase =
        (settings.withApostropheEscape true).letterCase := rfl
    have hfield (field : Field) (hw : field.WellFormed (settings.withApostropheEscape false))
        (hc : (settings.withApostropheEscape false).CutsAlike
          (settings.withApostropheEscape true) field.raw) :
        Field.AlikeButKind field (field.under (settings.withApostropheEscape true)) :=
      Field.alikeButKind_under hw (hc.resolve_left hne)
    exact ⟨Field.rel_read? (.inr hn) hfield,
      rel_read? (.inr hn) (fun _ hw => (Field.code_under hw hcase).symm) hfield⟩

/-- A line with a comment, a code and fields of all kinds, and without an apostrophe. -/
def mixed : List Char := "(a) g02.5 x-1.257 Y \"b\"\"c\" z 99999 * !".toList

theorem cut_under_settings_mixed :
    ({} : Settings).apostropheEscape =
        ({ letterCase := .keep, scale := 3 } : Settings).apostropheEscape ∧
      apostrophe ∉ mixed ∧
      (read? {} mixed).map Command.remainder = some "!".toList ∧
      Option.Rel (Match Code.SameNumber (Field.Alike {} { letterCase := .keep, scale := 3 }))
        (read? {} mixed) (read? { letterCase := .keep, scale := 3 } mixed) ∧
      Option.Rel (Match Eq Field.AlikeButKind)
        (read? (({} : Settings).withApostropheEscape false) mixed)
        (read? (({} : Settings).withApostropheEscape true) mixed) :=
  have he : ({} : Settings).apostropheEscape =
      ({ letterCase := .keep, scale := 3 } : Settings).apostropheEscape := rfl
  have hn : apostrophe ∉ mixed := by decide
  ⟨he, hn, by decide +kernel,
    ((cut_under_settings {} { letterCase := .keep, scale := 3 } mixed).1 he).2,
    ((cut_under_settings {} { letterCase := .keep, scale := 3 } mixed).2 hn).2⟩

end Command
end GCode
