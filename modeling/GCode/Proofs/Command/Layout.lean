import GCode.Proofs.Command.Grammar

/-!
# The layout of a command

The line of a command is laid out in parts: blanks, at most one comment in parentheses, blanks again,
the field that makes its code, blanks, and its body. The code holds all that its field says: the word
in the letter case of the settings, the number before the point, and the digits behind the point as a
number of their own, so that `.05` is five and `.50` is fifty.

* `Comment.exists_of_skip_ne_nil`: what is skipped before the rest of a line is a closed comment, or
  nothing.
* `Field.codeOf_eq_pack`: a number that makes a code is packed into it whole.
* `Command.line_of_read?`: the parts of a line that is a command, and what its code says of them.
-/

namespace GCode

open Text Numeral

theorem Comment.exists_of_skip_ne_nil {line : List Char} (h : skip line ≠ []) :
    ∃ comment, (comment = [] ∨ ∃ content, ')' ∉ content ∧ comment = '(' :: (content ++ [')'])) ∧
      line = comment ++ skip line := by
  cases hr : read? line with
  | none =>
      rw [skip_of_stops (read?_eq_none_iff.1 hr)]
      exact ⟨[], .inl rfl, rfl⟩
  | some r =>
      obtain ⟨⟨kind, content⟩, tail⟩ := r
      obtain ⟨hw, he, hline⟩ := of_read? hr
      rw [skip_of_read? hr] at h ⊢
      -- a comment that goes to the end of the line would leave nothing
      have hkind : kind = .enclosed := by
        by_contra hk
        exact h (he hk)
      subst hkind
      exact ⟨'(' :: (content ++ [')']), .inr ⟨content, hw nofun, rfl⟩, hline.symm⟩

/-- The subcode that the text of a code gives: the digits behind its point as a number of their own,
and zero if it has no point. -/
inductive Code.SubcodeRule : List Char → Nat → Prop
  | whole {text : List Char} : '.' ∉ text → SubcodeRule text 0
  | dotted {front gap digits : List Char} : '.' ∉ front → IsRun isBlank gap →
      digits ≠ [] → IsRun Char.isDigit digits →
      SubcodeRule (front ++ '.' :: (gap ++ digits)) (value digits)

namespace Field

variable {settings : Settings} {line tail : List Char} {field : Field} {word : Char} {n : Number}

/-! ## What a code holds -/

theorem bounds_of_isValid_codeOf (ha : word.isAlpha = true) (hw : n.WellFormed)
    (hv : (codeOf word n).isValid = true) :
    n.toInt.toInt = value n.whole ∧ value n.whole ≤ 65535 ∧ value n.places ≤ 255 := by
  have hint : n.toInt.toInt = n.signum * value n.whole := Number.toInt_toInt hw
  have hplus (hs : n.sign ≠ some .minus) : n.signum * value n.whole = value n.whole := by
    simp [Number.signum, Number.isNegative, hs, Number.signFactor]
  cases hp : n.point with
  | none =>
      obtain ⟨hnumber, hminus⟩ := (isValid_codeOf_of_none ha hw hp).1 hv
      have hplaces : value n.places ≤ 255 := by simp [Number.places, hp, value]
      refine ⟨?_, hnumber, hplaces⟩
      by_cases hs : n.sign = some .minus
      · rw [hint, hminus hs]
        exact Int.mul_zero _
      · rw [hint, hplus hs]
  | some p =>
      obtain ⟨hsign, -, hnumber, -, hsubcode⟩ := (isValid_codeOf_of_some ha hw hp).1 hv
      have hplaces : n.places = p.digits := by simp [Number.places, hp]
      refine ⟨?_, hnumber, hplaces ▸ hsubcode⟩
      rw [hint, hplus (by simp [hsign])]

/-- **A number that makes a code is packed into it whole**: the digits before the point as the number,
those behind it as the subcode. -/
theorem codeOf_eq_pack (ha : word.isAlpha = true) (hw : n.WellFormed)
    (hv : (codeOf word n).isValid = true) :
    codeOf word n = Code.pack word (value n.whole).toUInt16 (value n.places).toUInt8 := by
  obtain ⟨hint, hnumber, hsubcode⟩ := bounds_of_isValid_codeOf ha hw hv
  cases hp : n.point with
  | none =>
      have hplaces : value n.places = 0 := by simp [Number.places, hp, value]
      simp only [codeOf, hp] at hv ⊢
      split at hv
      next hr => rw [if_pos hr, hint, Int.toNat_natCast, hplaces]; rfl
      next => exact absurd hv not_isValid_invalid
  | some p =>
      have hlimit := toNat_limit
      have hplaces : n.places = p.digits := by simp [Number.places, hp]
      rw [hplaces] at hsubcode ⊢
      simp only [codeOf, hp] at hv ⊢
      split at hv
      next subcode hb =>
        have hdigits : IsRun Char.isDigit p.digits := (hw.point p hp).digits
        have hvalue : subcode.toNat = value p.digits := ((bounded?_eq_some_iff hdigits).1 hb).1
        split at hv
        next hc =>
          rw [if_pos hc, ← hw.toNat_integral, ← hvalue]
          rfl
        next => exact absurd hv not_isValid_invalid
      next => exact absurd hv not_isValid_invalid

theorem subcodeRule_of_isValid_codeOf {letter : Char} (hl : isWord letter = true)
    (ha : word.isAlpha = true) (hw : n.WellFormed) (hv : (codeOf word n).isValid = true) :
    Code.SubcodeRule (letter :: n.text) (value n.places) := by
  have hfront : '.' ∉ letter :: n.front := by
    rw [List.mem_cons]
    rintro (rfl | hm)
    · exact absurd hl (by decide)
    · exact hw.notMem_front hm
  rw [Number.text_eq, ← List.cons_append]
  cases hp : n.point with
  | none =>
      have hplaces : value n.places = 0 := by simp [Number.places, hp, value]
      rw [hplaces]
      simpa using Code.SubcodeRule.whole hfront
  | some p =>
      obtain ⟨-, -, -, hne, -⟩ := (isValid_codeOf_of_some ha hw hp).1 hv
      have hpw := hw.point p hp
      have hplaces : n.places = p.digits := by simp [Number.places, hp]
      have hbefore : '.' ∉ (letter :: n.front) ++ p.before := by
        rw [List.mem_append]
        rintro (hm | hm)
        · exact hfront hm
        · exact hpw.before.notMem (by decide) hm
      have hrule := Code.SubcodeRule.dotted hbefore hpw.after hne hpw.digits
      rw [hplaces]
      simpa [Point.text] using hrule

/-- **The code of a field holds what the field says**: its letter, its integer, and the digits behind
its point. -/
theorem parts_of_isValid_code (h : read? settings line = some (field, tail))
    (hv : field.code.isValid = true) :
    field.kind.isNumeric = true ∧ field.letter.isAlpha = true ∧
      field.code.word = settings.letterCase.apply field.letter ∧
      (∃ integer, field.integer = .ok integer ∧ integer.toInt = field.code.number.toNat) ∧
      Code.SubcodeRule field.raw field.code.subcode.toNat := by
  obtain ⟨halpha, n, scaled, ha, hcode⟩ := exists_number_of_isValid_code hv
  have hk : field.kind.isNumeric = true := isNumeric_kind_iff.2 ⟨n, scaled, ha⟩
  obtain ⟨rest, n', -, hl, hword, hn, ha'⟩ := exists_number_of_read? h hk
  obtain rfl : n = n' := by
    rw [ha] at ha'
    exact (Argument.number.inj ha').1
  have hw : n.WellFormed := (Number.read?_eq_some_iff.1 hn).1
  rw [hcode] at hv ⊢
  obtain ⟨hint, hnumber, hsubcode⟩ := bounds_of_isValid_codeOf halpha hw hv
  have hrule := subcodeRule_of_isValid_codeOf hl halpha hw hv
  have hraw : field.raw = field.letter :: n.text := by rw [raw, ha, Argument.text]
  have hletter : field.letter.isAlpha = true := by
    rw [← halpha, hword, LetterCase.isAlpha_apply]
  have hparts := toNat_of_isAlpha halpha
  rw [codeOf_eq_pack halpha hw hv, Code.word_pack hparts, Code.number_pack hparts,
    Code.subcode_pack hparts]
  refine ⟨hk, hletter, hword, ⟨n.toInt, integer_of_number ha, ?_⟩, ?_⟩
  · rw [hint, Nat.toUInt16_eq, UInt16.toNat_ofNat', Nat.mod_eq_of_lt (by omega)]
  · rwa [hraw, Nat.toUInt8_eq, UInt8.toNat_ofNat', Nat.mod_eq_of_lt (by omega)]

end Field

namespace Command

variable {settings : Settings} {line : List Char} {command : Command}

/-- **A command is laid out on its line as blanks, a comment, blanks, its code, blanks and its body**,
and its code holds what is written there. The comment is in parentheses that are closed, if there is
one. The code is a letter with a number: its word is the letter in the letter case of the settings,
its number the integer of the field, its subcode the digits behind the point. -/
theorem line_of_read? (h : read? settings line = some command) :
    ∃ (before comment between : List Char) (field : Field) (after : List Char),
      line = before ++ (comment ++ (between ++ (field.raw ++ (after ++ command.body)))) ∧
      IsRun isBlank before ∧ IsRun isBlank between ∧ IsRun isBlank after ∧
      Stops isBlank command.body ∧
      (comment = [] ∨ ∃ content, ')' ∉ content ∧ comment = '(' :: (content ++ [')'])) ∧
      Field.read? settings (field.raw ++ (after ++ command.body)) =
        some (field, after ++ command.body) ∧
      field.kind.isNumeric = true ∧ field.letter.isAlpha = true ∧
      command.code.isValid = true ∧
      command.code.word = settings.letterCase.apply field.letter ∧
      (∃ integer, field.integer = .ok integer ∧
        integer.toInt = command.code.number.toNat) ∧
      Code.SubcodeRule field.raw command.code.subcode.toNat := by
  obtain ⟨field, tail, hf, hv, rfl⟩ := exists_field_of_read? h
  have hraw : field.raw ++ tail = opening line := Field.raw_append hf
  have hskip : Comment.skip (dropBlanks line) ≠ [] := by
    intro hnil
    rw [opening, hnil] at hf
    cases hf
  obtain ⟨comment, hcomment, hline⟩ := Comment.exists_of_skip_ne_nil hskip
  have hparts := Field.parts_of_isValid_code hf hv
  refine ⟨takeBlanks line, comment, takeBlanks (Comment.skip (dropBlanks line)), field,
    takeBlanks tail, ?_, isRun_takeBlanks _, isRun_takeBlanks _, isRun_takeBlanks _,
    stops_dropBlanks tail, hcomment, ?_, hparts.1, hparts.2.1, hv, hparts.2.2⟩
  · rw [takeBlanks_append_dropBlanks tail, hraw, opening, takeBlanks_append_dropBlanks, ← hline,
      takeBlanks_append_dropBlanks]
  · rw [takeBlanks_append_dropBlanks tail, hraw, hf]

/-- A code with blanks in all places and zeros in front of both of its numbers. -/
def spread : Command := ⟨Code.pack 'G' 7 5, "X1".toList, default⟩

theorem line_of_read?_spread :
    read? default "\t(a;() g 007 . 05 X1".toList = some spread ∧
      ∃ (before comment between : List Char) (field : Field) (after : List Char),
        "\t(a;() g 007 . 05 X1".toList =
          before ++ (comment ++ (between ++ (field.raw ++ (after ++ "X1".toList)))) ∧
        IsRun isBlank before ∧ IsRun isBlank between ∧ IsRun isBlank after ∧
        (comment = [] ∨ ∃ content, ')' ∉ content ∧ comment = '(' :: (content ++ [')'])) ∧
        LetterCase.upper.apply field.letter = 'G' ∧
        (∃ integer, field.integer = .ok integer ∧ integer.toInt = 7) ∧
        Code.SubcodeRule field.raw 5 := by
  have h : read? default "\t(a;() g 007 . 05 X1".toList = some spread := by decide
  obtain ⟨before, comment, between, field, after, hline, hbefore, hbetween, hafter, -, hcomment, -,
    -, -, -, hword, hnumber, hsubcode⟩ := line_of_read? h
  exact ⟨h, before, comment, between, field, after, hline, hbefore, hbetween, hafter, hcomment,
    hword.symm, hnumber, hsubcode⟩

end Command
end GCode
