import GCode.Proofs.Command.Grammar
import GCode.Proofs.Command.NormalForm

/-!
# A comment behind a command

A comment behind blanks stands apart from whatever is before it, so it changes nothing of what is
read from a line: not the comment at its head, not the code, and none of the fields, however far
each of them looks ahead. It only joins the text that is no field. An open literal is the exception,
for it goes on to the end of the line.

* `Command.opening_append`: what is appended to a line stays behind its opening.
* `Cursor.Cut.append`: a cut of a text, with more behind the text.
* `Command.read?_append`: a command is read as before if a text that stands apart and has no field is
  appended to its line.
* `Command.read?_append_comment`: the same for a comment behind blanks.
-/

namespace GCode

open Text

variable {settings : Settings} {line text gap rest more : List Char}

/-! ## What stands before the code -/

theorem Comment.skip_append (h : skip line ≠ []) (more : List Char) :
    skip (line ++ more) = skip line ++ more := by
  cases hr : read? line with
  | none =>
      have hs := read?_eq_none_iff.1 hr
      rw [skip_of_stops hs] at h ⊢
      obtain ⟨c, text, rfl⟩ := List.exists_cons_of_ne_nil h
      exact skip_of_stops (stops_cons.2 (stops_cons.1 hs))
  | some r =>
      obtain ⟨comment, tail⟩ := r
      obtain ⟨hw, he, rfl⟩ := of_read? hr
      rw [skip_of_read? hr] at h ⊢
      -- a comment that something is left behind is closed, and ends before any text
      have hends : comment.Ends (tail ++ more) := fun hk => absurd (he hk) h
      rw [List.append_assoc, skip_of_read? (read?_raw_append hw hends)]

namespace Command

theorem opening_append (h : opening line ≠ []) (more : List Char) :
    opening (line ++ more) = opening line ++ more := by
  have hskip : Comment.skip (dropBlanks line) ≠ [] := by
    intro hs
    rw [opening, hs] at h
    exact h rfl
  have hline : dropBlanks line ≠ [] := by
    intro hl
    rw [hl] at hskip
    exact hskip rfl
  rw [opening, dropBlanks_append_of_ne_nil hline, Comment.skip_append hskip,
    dropBlanks_append_of_ne_nil h, ← opening]

end Command

/-! ## Fields one after another -/

/-- **A cut is a cut of the same text with more behind it**, if that stands apart and has no field
at its head. It joins the rest, and it is the rest if there was none. -/
theorem Cursor.Cut.append {fields : List PlacedField} (h : Cut settings text fields gap rest)
    (ha : IsApart more) (hn : Field.read? settings (dropBlanks more) = none)
    (ho : ∀ placed ∈ fields, placed.field.argument.isOpen = false) :
    ∃ gap', Cut settings (text ++ more) fields gap'
      (if rest = [] then dropBlanks more else rest ++ more) := by
  induction h with
  | @done gap rest hg hs hr =>
      by_cases hrest : rest = []
      · -- the blanks before what is appended go with the gap
        refine ⟨gap ++ takeBlanks more, ?_⟩
        have hcut := Cut.done (isRun_append.2 ⟨hg, isRun_takeBlanks more⟩) (stops_dropBlanks more) hn
        rw [List.append_assoc, takeBlanks_append_dropBlanks] at hcut
        rwa [if_pos hrest, hrest, List.append_nil]
      · refine ⟨gap, ?_⟩
        have hstops : Stops isBlank (rest ++ more) := by
          obtain ⟨c, rest, rfl⟩ := List.exists_cons_of_ne_nil hrest
          exact stops_cons.2 (stops_cons.1 hs)
        rw [if_neg hrest, List.append_assoc]
        exact .done hg hstops (Field.read?_append_of_none ha hr)
  | @field gap₁ tail gap rest field fields hg hr _ ih =>
      obtain ⟨gap', hcut⟩ := ih fun placed hm => ho placed (List.mem_cons_of_mem _ hm)
      have hread := Field.read?_append ha hr (ho _ List.mem_cons_self)
      rw [List.append_assoc] at hread
      refine ⟨gap', ?_⟩
      rw [List.append_assoc, List.append_assoc]
      exact .field hg hread hcut

theorem Field.isOpen_of_isValid_code {field : Field} (h : field.code.isValid = true) :
    field.argument.isOpen = false := by
  obtain ⟨-, n, scaled, ha, -⟩ := exists_number_of_isValid_code h
  rw [ha]
  rfl

namespace Command

variable {command : Command}

theorem fields_of_cut (code : Code) {fields : List PlacedField}
    (h : Cursor.Cut settings text fields gap rest) :
    Command.fields ⟨code, dropBlanks text, settings⟩ = fields.map PlacedField.field ∧
      remainder ⟨code, dropBlanks text, settings⟩ = rest := by
  have hall := h.readAll_eq
  rw [← Cursor.readAll_dropBlanks] at hall
  exact ⟨congrArg Prod.fst hall, congrArg (fun r => r.2.remainder) hall⟩

/-- **A command is read as before if a text that stands apart is appended to its line**, with no
field at its head. The text joins the remainder. None of the fields may be an open literal, which
would take it in. -/
theorem read?_append (h : read? settings line = some command)
    (ho : ∀ field ∈ command.fields, field.argument.isOpen = false)
    (ha : IsApart more) (hn : Field.read? settings (dropBlanks more) = none) :
    ∃ again, read? settings (line ++ more) = some again ∧ again.code = command.code ∧
      again.settings = command.settings ∧ again.fields = command.fields ∧
      again.remainder =
        if command.remainder = [] then dropBlanks more else command.remainder ++ more := by
  obtain ⟨field, tail, hf, hv, rfl⟩ := exists_field_of_read? h
  have hopening : opening line ≠ [] := by
    intro hnil
    rw [hnil] at hf
    cases hf
  have hagain := Field.read?_append ha hf (Field.isOpen_of_isValid_code hv)
  rw [← opening_append hopening] at hagain
  have hread := read?_of_field hagain
  rw [if_pos hv] at hread
  obtain ⟨fields, gap, rest, hcut⟩ := Cursor.exists_cut settings tail
  obtain ⟨hfields, hremainder⟩ := fields_of_cut field.code hcut
  rw [hfields, List.forall_mem_map] at ho
  obtain ⟨gap', hcut'⟩ := hcut.append ha hn ho
  obtain ⟨hfields', hremainder'⟩ := fields_of_cut field.code hcut'
  refine ⟨_, hread, rfl, rfl, ?_, ?_⟩
  · rw [hfields, hfields']
  · rw [hremainder, hremainder']

/-- **A comment behind a command and blanks only joins its remainder.** The command has the same code
and the same fields, and the comment is the remainder if there was none. None of the fields may be
an open literal. -/
theorem read?_append_comment (h : read? settings line = some command)
    (ho : ∀ field ∈ command.fields, field.argument.isOpen = false)
    (hg : IsRun isBlank gap) (hne : gap ≠ []) (text : List Char) :
    ∃ again, read? settings (line ++ (gap ++ ';' :: text)) = some again ∧
      again.code = command.code ∧ again.settings = command.settings ∧
      again.fields = command.fields ∧
      again.remainder =
        if command.remainder = [] then ';' :: text
        else command.remainder ++ (gap ++ ';' :: text) := by
  have hblank : Stops isBlank (';' :: text) := stops_cons.2 (by decide)
  have hdrop : dropBlanks (gap ++ ';' :: text) = ';' :: text := dropBlanks_append hg hblank
  have hapart : IsApart (gap ++ ';' :: text) :=
    isApart_append hg hne hblank (stops_cons.2 (by decide))
  have hnone : Field.read? settings (dropBlanks (gap ++ ';' :: text)) = none := by
    rw [hdrop]
    rfl
  have hagain := read?_append h ho hapart hnone
  rwa [hdrop] at hagain

/-- Fields and a rest that look ahead: a point at the end of a number, a closed text, a word before
a sign. -/
def dangling : Command := ⟨Code.pack 'G' 1 0, "x 1 .*\"q\"y -".toList, default⟩

theorem read?_append_comment_dangling :
    read? default "(;) g+01x 1 .*\"q\"y -".toList = some dangling ∧
      dangling.fields.map Field.raw = ["x 1 .".toList, "*\"q\"".toList, "y".toList] ∧
      (∀ field ∈ dangling.fields, field.argument.isOpen = false) ∧
      IsRun isBlank " \t".toList ∧ " \t".toList ≠ [] ∧
      ∃ again, read? default "(;) g+01x 1 .*\"q\"y - \t;\"5".toList = some again ∧
        again.code = dangling.code ∧ again.settings = dangling.settings ∧
        again.fields = dangling.fields ∧ again.remainder = "- \t;\"5".toList := by
  have h : read? default "(;) g+01x 1 .*\"q\"y -".toList = some dangling := by decide
  have hraws : dangling.fields.map Field.raw =
      ["x 1 .".toList, "*\"q\"".toList, "y".toList] := by decide +kernel
  have ho : ∀ field ∈ dangling.fields, field.argument.isOpen = false := by decide +kernel
  have hg : IsRun isBlank " \t".toList :=
    isRun_cons.2 ⟨by decide, isRun_cons.2 ⟨by decide, isRun_nil⟩⟩
  have hne : " \t".toList ≠ [] := by decide
  have hremainder : dangling.remainder = "-".toList := by decide +kernel
  obtain ⟨again, hread, hcode, hsettings, hfields, hrest⟩ :=
    read?_append_comment h ho hg hne "\"5".toList
  rw [hremainder] at hrest
  exact ⟨h, hraws, ho, hg, hne, again, hread, hcode, hsettings, hfields, hrest⟩

end Command
end GCode
