import GCode.Command
import GCode.Proofs.Code.Packing
import GCode.Proofs.Comment.Form
import GCode.Proofs.Field.Cases
import GCode.Proofs.Number.Grammar
import GCode.Proofs.Number.Scaling
import GCode.Proofs.Settings.LetterCase

/-!
# The grammar of commands

A line is a command if the field behind its comment makes a code. `Code.Rule` is what a code looks
like on the line: a letter and digits that fit 16 bits, perhaps with a point and digits that fit
8 bits.

The number of a code without a point is taken by its value, and so it can be written with a sign
(`Code.SignedRule`), as in `G+1` and `G-0`. The number of a code with a point cannot.

* `Field.isValid_codeOf_of_none`, `Field.isValid_codeOf_of_some`: the numbers that make a code,
  without and with a point.
* `Code.rule_iff`, `Code.signedRule_iff`: the rules, said of the number behind a letter.
* `Field.isValid_code_iff`: a field makes a code exactly if its text keeps to one of the two rules.
* `Command.isSome_read?_iff`: the lines that are commands.
-/

namespace GCode

open Text Numeral

/-! ## The text of a code -/

namespace Code

/-- A code without a sign: a letter and digits, perhaps with a point and digits again, and blanks
between them. -/
inductive Rule : List Char → Prop
  | plain {letter : Char} {gap digits : List Char} : letter.isAlpha = true → IsRun isBlank gap →
      digits ≠ [] → IsRun Char.isDigit digits → value digits ≤ 65535 →
      Rule (letter :: (gap ++ digits))
  | dotted {letter : Char} {gap digits before after places : List Char} :
      letter.isAlpha = true → IsRun isBlank gap →
      digits ≠ [] → IsRun Char.isDigit digits → value digits ≤ 65535 →
      IsRun isBlank before → IsRun isBlank after →
      places ≠ [] → IsRun Char.isDigit places → value places ≤ 255 →
      Rule (letter :: (gap ++ (digits ++ (before ++ '.' :: (after ++ places)))))

/-- A code with a sign: it has no point, and behind a minus the number is zero. -/
inductive SignedRule : List Char → Prop
  | signed {letter : Char} {gap signGap digits : List Char} (sign : Sign) :
      letter.isAlpha = true → IsRun isBlank gap → IsRun isBlank signGap →
      digits ≠ [] → IsRun Char.isDigit digits → value digits ≤ 65535 →
      (sign = .minus → value digits = 0) →
      SignedRule (letter :: (gap ++ sign.char :: (signGap ++ digits)))

end Code

namespace Number

theorem wellFormed_ofParts {gap signGap whole : List Char} {sign : Option Sign}
    {point : Option Point} (hg : IsRun isBlank gap) (hs : IsRun isBlank signGap)
    (hn : sign = none → signGap = []) (hne : whole ≠ []) (hd : IsRun Char.isDigit whole)
    (hv : value whole ≤ 65535) (hp : ∀ p ∈ point, p.WellFormed) :
    (ofParts gap sign signGap whole point).WellFormed := by
  have hlimit := toNat_limit
  have hl : value whole ≤ limit.toNat := by omega
  exact ⟨hg, hs, hn, hd, toNat_integral_ofParts hl, hl, hp, fun h => absurd h hne, fun _ => hne⟩

theorem WellFormed.quote_notMem_text {n : Number} (hw : n.WellFormed) : quote ∉ n.text := by
  intro h
  rcases hw.of_mem_text h with hblank | hsign | hdigit | hpoint
  · exact absurd hblank (by decide)
  · exact absurd hsign (by decide)
  · exact absurd hdigit (by decide)
  · exact absurd hpoint (by decide)

end Number

/-! ## The numbers that make a code -/

namespace Field

variable {word : Char} {n : Number}

theorem isValid_pack (ha : word.isAlpha = true) (number : UInt16) (subcode : UInt8) :
    (Code.pack word number subcode).isValid = true :=
  Code.isValid_pack_iff.2 (toNat_of_isAlpha ha)

theorem not_isValid_invalid : ¬Code.invalid.isValid = true := by decide

/-- **A number without a point makes a code by its value.** -/
theorem isValid_codeOf_of_none (ha : word.isAlpha = true) (hw : n.WellFormed)
    (hp : n.point = none) :
    (codeOf word n).isValid = true ↔
      value n.whole ≤ 65535 ∧ (n.sign = some .minus → value n.whole = 0) := by
  have hint : n.toInt.toInt = n.signum * value n.whole := Number.toInt_toInt hw
  have hrange : (0 ≤ n.toInt ∧ n.toInt < 65536) ↔
      value n.whole ≤ 65535 ∧ (n.sign = some .minus → value n.whole = 0) := by
    have hzero : (0 : Int32).toInt = 0 := rfl
    have hbound : (65536 : Int32).toInt = 65536 := rfl
    rw [Int32.le_iff_toInt_le, Int32.lt_iff_toInt_lt, hint, hzero, hbound]
    by_cases hm : n.sign = some .minus
    · have hsignum : n.signum = -1 := by
        simp [Number.signum, Number.isNegative, hm, Number.signFactor]
      rw [hsignum]
      simp only [hm, true_implies]
      omega
    · have hsignum : n.signum = 1 := by
        simp [Number.signum, Number.isNegative, hm, Number.signFactor]
      rw [hsignum]
      simp only [hm, false_implies, and_true]
      omega
  simp only [codeOf, hp]
  by_cases hr : 0 ≤ n.toInt ∧ n.toInt < 65536
  · rw [if_pos hr]
    exact ⟨fun _ => hrange.1 hr, fun _ => isValid_pack ha _ _⟩
  · rw [if_neg hr]
    exact ⟨fun h => absurd h not_isValid_invalid, fun h => absurd (hrange.2 h) hr⟩

/-- **A number with a point makes a code by its digits**, and only without a sign. -/
theorem isValid_codeOf_of_some {p : Point} (ha : word.isAlpha = true) (hw : n.WellFormed)
    (hp : n.point = some p) :
    (codeOf word n).isValid = true ↔
      n.sign = none ∧ n.whole ≠ [] ∧ value n.whole ≤ 65535 ∧ p.digits ≠ [] ∧
        value p.digits ≤ 255 := by
  have hlimit := toNat_limit
  have hd : IsRun Char.isDigit p.digits := (hw.point p hp).digits
  have hnumber : n.integral < 65536 ↔ value n.whole ≤ 65535 := by
    have hbound : (65536 : UInt64).toNat = 65536 := rfl
    rw [UInt64.lt_iff_toNat_lt, hw.toNat_integral, hbound]
    omega
  simp only [codeOf, hp]
  cases hb : bounded? p.digits with
  | none =>
      have hpast : ¬value p.digits ≤ 255 := by
        intro hle
        have hsome := map_toNat_bounded? hd
        rw [hb, if_pos (by omega)] at hsome
        cases hsome
      exact ⟨fun h => absurd h not_isValid_invalid, fun h => absurd h.2.2.2.2 hpast⟩
  | some subcode =>
      have hsubcode : subcode < 256 ↔ value p.digits ≤ 255 := by
        have hbound : (256 : UInt64).toNat = 256 := rfl
        rw [UInt64.lt_iff_toNat_lt, ((bounded?_eq_some_iff hd).1 hb).1, hbound]
        omega
      simp only [hnumber, hsubcode]
      by_cases hc : n.sign = none ∧ n.whole ≠ [] ∧ p.digits ≠ [] ∧ value n.whole ≤ 65535 ∧
          value p.digits ≤ 255
      · rw [if_pos hc]
        obtain ⟨hsign, hwhole, hdigits, hn, hs⟩ := hc
        exact ⟨fun _ => ⟨hsign, hwhole, hn, hdigits, hs⟩, fun _ => isValid_pack ha _ _⟩
      · rw [if_neg hc]
        refine ⟨fun h => absurd h not_isValid_invalid, ?_⟩
        rintro ⟨hsign, hwhole, hn, hdigits, hs⟩
        exact absurd ⟨hsign, hwhole, hdigits, hn, hs⟩ hc

end Field

/-! ## The rules and the numbers -/

namespace Code

variable {letter : Char} {text : List Char} {n : Number}

theorem Rule.exists_number (h : Rule text) :
    ∃ (letter : Char) (n : Number), text = letter :: n.text ∧ letter.isAlpha = true ∧
      n.WellFormed ∧ n.sign = none ∧ n.whole ≠ [] ∧ value n.whole ≤ 65535 ∧
      ∀ p ∈ n.point, p.digits ≠ [] ∧ value p.digits ≤ 255 := by
  cases h with
  | @plain letter gap digits ha hg hne hd hv =>
      refine ⟨letter, Number.ofParts gap none [] digits none, ?_, ha,
        Number.wellFormed_ofParts hg isRun_nil (fun _ => rfl) hne hd hv (by simp), rfl, hne, hv,
        by simp [Number.ofParts]⟩
      simp [Number.text, Number.argument, Number.ofParts]
  | @dotted letter gap digits before after places ha hg hne hd hv hb haf hpne hpd hpv =>
      have hpoint : ∀ p ∈ some (Point.mk before after places), p.WellFormed := by
        rintro p ⟨⟩
        exact ⟨hb, haf, hpd, fun h => absurd h hpne⟩
      refine ⟨letter, Number.ofParts gap none [] digits (some ⟨before, after, places⟩), ?_, ha,
        Number.wellFormed_ofParts hg isRun_nil (fun _ => rfl) hne hd hv hpoint, rfl, hne, hv, ?_⟩
      · simp [Number.text, Number.argument, Number.ofParts, Point.text]
      · rintro p ⟨⟩
        exact ⟨hpne, hpv⟩

theorem SignedRule.exists_number (h : SignedRule text) :
    ∃ (letter : Char) (n : Number), text = letter :: n.text ∧ letter.isAlpha = true ∧
      n.WellFormed ∧ n.sign ≠ none ∧ n.point = none ∧ value n.whole ≤ 65535 ∧
      (n.sign = some .minus → value n.whole = 0) := by
  cases h with
  | @signed letter gap signGap digits sign ha hg hs hne hd hv hm =>
      refine ⟨letter, Number.ofParts gap (some sign) signGap digits none, ?_, ha,
        Number.wellFormed_ofParts hg hs (by simp) hne hd hv (by simp), by simp [Number.ofParts],
        rfl, hv, ?_⟩
      · simp [Number.text, Number.argument, Number.ofParts]
      · intro h
        exact hm (Option.some.inj h)

theorem rule_iff (hw : n.WellFormed) :
    Rule (letter :: n.text) ↔
      letter.isAlpha = true ∧ n.sign = none ∧ n.whole ≠ [] ∧ value n.whole ≤ 65535 ∧
        ∀ p ∈ n.point, p.digits ≠ [] ∧ value p.digits ≤ 255 := by
  constructor
  · intro h
    obtain ⟨letter', m, htext, ha, hm, hlater⟩ := h.exists_number
    obtain ⟨rfl, hnm⟩ := List.cons.inj htext
    rw [hw.text_inj hm hnm]
    exact ⟨ha, hlater⟩
  · rintro ⟨ha, hsign, hne, hv, hp⟩
    have hgap : n.signGap = [] := hw.signGap_eq_nil hsign
    cases h : n.point with
    | none =>
        have htext : n.text = n.gap ++ n.whole := by
          simp [Number.text, Number.argument, hsign, hgap, h]
        rw [htext]
        exact .plain ha hw.gap hne hw.whole hv
    | some p =>
        have hpw := hw.point p h
        have htext : n.text = n.gap ++ (n.whole ++ (p.before ++ '.' :: (p.after ++ p.digits))) := by
          simp [Number.text, Number.argument, hsign, hgap, h, Point.text]
        rw [htext]
        exact .dotted ha hw.gap hne hw.whole hv hpw.before hpw.after (hp p h).1 hpw.digits (hp p h).2

theorem signedRule_iff (hw : n.WellFormed) :
    SignedRule (letter :: n.text) ↔
      letter.isAlpha = true ∧ n.sign ≠ none ∧ n.point = none ∧ value n.whole ≤ 65535 ∧
        (n.sign = some .minus → value n.whole = 0) := by
  constructor
  · intro h
    obtain ⟨letter', m, htext, ha, hm, hlater⟩ := h.exists_number
    obtain ⟨rfl, hnm⟩ := List.cons.inj htext
    rw [hw.text_inj hm hnm]
    exact ⟨ha, hlater⟩
  · rintro ⟨ha, hsign, hp, hv, hm⟩
    obtain ⟨sign, hs⟩ := Option.ne_none_iff_exists'.1 hsign
    have hne : n.whole ≠ [] := hw.whole_ne_nil (by simp [Number.places, hp])
    have htext : n.text = n.gap ++ sign.char :: (n.signGap ++ n.whole) := by
      simp [Number.text, Number.argument, hs, hp]
    rw [htext]
    refine .signed sign ha hw.gap hw.signGap hne hw.whole hv ?_
    rintro rfl
    exact hm hs

/-- The two rules together are the numbers that make a code with a letter. -/
theorem rule_or_signedRule_iff {word : Char} (hword : word.isAlpha = true)
    (hletter : letter.isAlpha = true) (hw : n.WellFormed) :
    Rule (letter :: n.text) ∨ SignedRule (letter :: n.text) ↔
      (Field.codeOf word n).isValid = true := by
  rw [rule_iff hw, signedRule_iff hw]
  cases hp : n.point with
  | none =>
      have hne : n.whole ≠ [] := hw.whole_ne_nil (by simp [Number.places, hp])
      rw [Field.isValid_codeOf_of_none hword hw hp]
      cases hs : n.sign with
      | none => simp [hletter, hne]
      | some sign => simp [hletter]
  | some p =>
      rw [Field.isValid_codeOf_of_some hword hw hp]
      simp [hletter]

end Code

/-! ## Fields and lines -/

namespace Field

variable {settings : Settings} {line tail : List Char} {field : Field}

theorem exists_number_of_isValid_code (h : field.code.isValid = true) :
    field.word.isAlpha = true ∧
      ∃ n scaled, field.argument = .number n scaled ∧ field.code = codeOf field.word n := by
  obtain ⟨letter, word, argument⟩ := field
  cases argument with
  | absent => exact absurd h not_isValid_invalid
  | quoted gap literal apostropheEscape => exact absurd h not_isValid_invalid
  | number n scaled =>
      cases ha : word.isAlpha with
      | true => exact ⟨rfl, n, scaled, rfl, by simp only [code, ha, if_true]⟩
      | false =>
          simp only [code, ha, Bool.false_eq_true, if_false] at h
          exact absurd h not_isValid_invalid

theorem exists_number_of_rule (h : Code.Rule field.raw ∨ Code.SignedRule field.raw) :
    ∃ n : Number, n.WellFormed ∧ field.argument.text = n.text ∧ field.letter.isAlpha = true := by
  rcases h with hr | hr
  · obtain ⟨letter, n, htext, ha, hw, -⟩ := hr.exists_number
    obtain ⟨rfl, harg⟩ := List.cons.inj htext
    exact ⟨n, hw, harg, ha⟩
  · obtain ⟨letter, n, htext, ha, hw, -⟩ := hr.exists_number
    obtain ⟨rfl, harg⟩ := List.cons.inj htext
    exact ⟨n, hw, harg, ha⟩

theorem isValid_code_iff_of_invalid (hcode : field.code = Code.invalid)
    (hno : ∀ n : Number, n.WellFormed → field.argument.text = n.text →
      field.letter.isAlpha = false) :
    field.code.isValid = true ↔ Code.Rule field.raw ∨ Code.SignedRule field.raw := by
  rw [hcode]
  refine iff_of_false not_isValid_invalid fun hr => ?_
  obtain ⟨n, hw, htext, ha⟩ := exists_number_of_rule hr
  rw [hno n hw htext] at ha
  cases ha

/-- **A field makes a code exactly if its text keeps to one of the rules.** -/
theorem isValid_code_iff (h : read? settings line = some (field, tail)) :
    field.code.isValid = true ↔ Code.Rule field.raw ∨ Code.SignedRule field.raw := by
  obtain ⟨rest, -, -, hword, ⟨gap, text, -, -, ha, -⟩ | ⟨n, hn, ha⟩ | ⟨ha, -⟩⟩ := exists_of_read? h
  · refine isValid_code_iff_of_invalid (by simp only [code, ha]) fun n hw htext => ?_
    have hmem : quote ∈ field.argument.text := by simp [ha, Argument.text]
    rw [htext] at hmem
    exact absurd hmem hw.quote_notMem_text
  · have hw : n.WellFormed := (Number.read?_eq_some_iff.1 hn).1
    have hraw : field.raw = field.letter :: n.text := by rw [raw, ha, Argument.text]
    have halpha : field.word.isAlpha = field.letter.isAlpha := by
      rw [hword, LetterCase.isAlpha_apply]
    cases hl : field.letter.isAlpha with
    | true =>
        rw [hl] at halpha
        have hcode : field.code = codeOf field.word n := by simp only [code, ha, halpha, if_true]
        rw [hcode, hraw]
        exact (Code.rule_or_signedRule_iff halpha hl hw).symm
    | false =>
        rw [hl] at halpha
        have hcode : field.code = Code.invalid := by
          simp only [code, ha, halpha, Bool.false_eq_true, if_false]
        exact isValid_code_iff_of_invalid hcode fun _ _ _ => hl
  · refine isValid_code_iff_of_invalid (by simp only [code, ha]) fun n hw htext => ?_
    have hnil : n.text = [] := by rw [← htext, ha, Argument.text]
    exact absurd (List.append_eq_nil_iff.1 hnil).2 hw.argument_ne_nil

end Field

theorem Comment.isOpening_eq_false_of_isWord (c : Char) (h : Field.isWord c = true) :
    isOpening c = false := by
  cases ho : isOpening c with
  | false => rfl
  | true =>
      simp only [isOpening, Bool.or_eq_true, decide_eq_true_eq] at ho
      rcases ho with rfl | rfl <;> exact absurd h (by decide)

namespace Command

/-- A line without what may stand before its code: blanks, a comment, and blanks again. -/
def opening (line : List Char) : List Char := dropBlanks (Comment.skip (dropBlanks line))

section
variable {settings : Settings} {line : List Char}

theorem read?_of_field {field : Field} {tail : List Char}
    (h : Field.read? settings (opening line) = some (field, tail)) :
    read? settings line =
      if field.code.isValid then some ⟨field.code, dropBlanks tail, settings⟩ else none := by
  rw [opening] at h
  simp only [read?, h]

theorem read?_of_noField (h : Field.read? settings (opening line) = none) :
    read? settings line = none := by
  rw [opening] at h
  simp only [read?, h]

/-- A command is the field at the opening of its line, which makes a code, and the text behind it. -/
theorem exists_field_of_read? {command : Command} (h : read? settings line = some command) :
    ∃ field tail, Field.read? settings (opening line) = some (field, tail) ∧
      field.code.isValid = true ∧ command = ⟨field.code, dropBlanks tail, settings⟩ := by
  cases hf : Field.read? settings (opening line) with
  | none =>
      rw [read?_of_noField hf] at h
      cases h
  | some read =>
      obtain ⟨field, tail⟩ := read
      rw [read?_of_field hf] at h
      split at h
      next hv =>
        cases h
        exact ⟨field, tail, rfl, hv, rfl⟩
      next => cases h

end

/-- **A line is a command exactly if the field at its opening is written as a code.** A code is a
letter and a number within 16 bits, perhaps with a point and a subcode within 8 bits. It has no sign
with a point; without one, it can have a plus, and zero a minus. -/
theorem isSome_read?_iff (settings : Settings) (line : List Char) :
    (read? settings line).isSome = true ↔
      ∃ field tail, Field.read? settings (opening line) = some (field, tail) ∧
        (Code.Rule field.raw ∨ Code.SignedRule field.raw) := by
  have hread : read? settings line = (Field.read? settings (opening line)).bind fun r =>
      if r.1.code.isValid then some ⟨r.1.code, dropBlanks r.2, settings⟩ else none := by
    simp only [read?, opening]
    split <;> simp_all
  rw [hread]
  cases hf : Field.read? settings (opening line) with
  | none => simp
  | some r =>
      obtain ⟨field, tail⟩ := r
      have hcode := Field.isValid_code_iff hf
      rw [Option.bind_some]
      constructor
      · intro h
        refine ⟨field, tail, rfl, hcode.1 ?_⟩
        by_contra hv
        simp [hv] at h
      · rintro ⟨field', tail', heq, hr⟩
        cases heq
        simp [hcode.2 hr]

/-- `G+1` is a command, and its code has a sign. -/
theorem not_forall_isSome_read?_iff :
    ¬∀ (settings : Settings) (line : List Char),
      (read? settings line).isSome = true ↔
        ∃ field tail, Field.read? settings (opening line) = some (field, tail) ∧
          Code.Rule field.raw := by
  intro h
  have hsome : (read? {} "G+1".toList).isSome = true := by decide
  obtain ⟨field, tail, hf, hr⟩ := (h {} "G+1".toList).1 hsome
  have hfield : Field.read? {} (opening "G+1".toList) =
      some (⟨'G', 'G', .number ⟨[], some .plus, [], ['1'], 1, none⟩ (some 1)⟩, []) := by decide
  rw [hfield] at hf
  cases hf
  have hnumber : Number.read? "+1".toList =
      some (⟨[], some .plus, [], ['1'], 1, none⟩, []) := by decide
  have hw := (Number.of_read? hnumber).1
  have hsign := ((Code.rule_iff hw).1 hr).2.1
  cases hsign

end Command
end GCode
