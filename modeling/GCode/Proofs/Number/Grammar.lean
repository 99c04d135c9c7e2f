import GCode.Proofs.Number.Form

/-!
# The grammar of numbers

`Number.Rule` is the rule of a number as a grammar states it, on the text alone: blanks, a sign and
blanks after it, then whole digits with or without a point, or a point with digits after it. The
one thing it asks of the text after the number is that whole digits without a point are all the
digits there are.

* `Number.rule_iff`: the texts of the rule are the texts of the well-formed numbers.
* `Number.isLongest_of_read?`: what is read is the longest beginning that the rule allows.
* `Number.read?_eq_none_iff`: nothing is read exactly where the rule allows no beginning.
-/

namespace GCode

open Text Numeral

namespace Number

/-- A number from its digits on, and the text after it. -/
inductive UnsignedRule : (text tail : List Char) → Prop
  /-- All digits there are, within the limit. -/
  | whole {digits tail : List Char} : digits ≠ [] → IsRun Char.isDigit digits →
      value digits ≤ limit.toNat → Stops Char.isDigit tail → UnsignedRule digits tail
  /-- Digits and a point, perhaps behind blanks. -/
  | point {digits before tail : List Char} : digits ≠ [] → IsRun Char.isDigit digits →
      value digits ≤ limit.toNat → IsRun isBlank before →
      UnsignedRule (digits ++ (before ++ ['.'])) tail
  /-- Digits, a point and digits again, perhaps with blanks around the point. -/
  | places {digits before after places tail : List Char} : digits ≠ [] →
      IsRun Char.isDigit digits → value digits ≤ limit.toNat → IsRun isBlank before →
      IsRun isBlank after → places ≠ [] → IsRun Char.isDigit places →
      UnsignedRule (digits ++ (before ++ '.' :: (after ++ places))) tail
  /-- A point and digits, perhaps behind blanks. -/
  | fraction {after places tail : List Char} : IsRun isBlank after → places ≠ [] →
      IsRun Char.isDigit places → UnsignedRule ('.' :: (after ++ places)) tail

/-- A number with the blanks before it, and the text after it. -/
inductive Rule : (text tail : List Char) → Prop
  | unsigned {gap text tail : List Char} : IsRun isBlank gap → UnsignedRule text tail →
      Rule (gap ++ text) tail
  | signed {gap signGap text tail : List Char} (sign : Sign) : IsRun isBlank gap →
      IsRun isBlank signGap → UnsignedRule text tail →
      Rule (gap ++ sign.char :: (signGap ++ text)) tail

/-! ## The texts of the rule are those of numbers -/

def ofParts (gap : List Char) (sign : Option Sign) (signGap whole : List Char)
    (point : Option Point) : Number :=
  ⟨gap, sign, signGap, whole, UInt64.ofNat (value whole), point⟩

theorem toNat_integral_ofParts {whole : List Char} (h : value whole ≤ limit.toNat) :
    (UInt64.ofNat (value whole)).toNat = value whole := by
  have hl := toNat_limit
  rw [UInt64.toNat_ofNat']
  omega

theorem UnsignedRule.exists_number {text tail : List Char} (h : UnsignedRule text tail)
    (sign : Option Sign) {gap signGap : List Char} (hg : IsRun isBlank gap)
    (hs : IsRun isBlank signGap) (hn : sign = none → signGap = []) :
    ∃ n : Number, n.WellFormed ∧ n.gap = gap ∧ n.sign = sign ∧ n.signGap = signGap ∧
      n.unsigned = text ∧ (n.point = none → Stops Char.isDigit tail) := by
  cases h with
  | whole hne hd hl ht =>
      refine ⟨ofParts gap sign signGap text none, ⟨hg, hs, hn, hd, toNat_integral_ofParts hl, hl,
        by simp [ofParts], by simp [ofParts], fun _ => hne⟩, rfl, rfl, rfl, ?_, fun _ => ht⟩
      simp [unsigned, ofParts]
  | @point digits before _ hne hd hl hb =>
      refine ⟨ofParts gap sign signGap digits (some ⟨before, [], []⟩), ⟨hg, hs, hn, hd,
        toNat_integral_ofParts hl, hl, ?_, fun h => absurd h hne, fun _ => hne⟩,
        rfl, rfl, rfl, ?_, by simp [ofParts]⟩
      · rintro p ⟨⟩
        exact ⟨hb, isRun_nil, isRun_nil, fun _ => rfl⟩
      · simp [unsigned, ofParts, Point.text]
  | @places digits before after places _ hne hd hl hb ha hp hpd =>
      refine ⟨ofParts gap sign signGap digits (some ⟨before, after, places⟩), ⟨hg, hs, hn, hd,
        toNat_integral_ofParts hl, hl, ?_, fun h => absurd h hne, fun _ => hne⟩,
        rfl, rfl, rfl, ?_, by simp [ofParts]⟩
      · rintro p ⟨⟩
        exact ⟨hb, ha, hpd, fun h => absurd h hp⟩
      · simp [unsigned, ofParts, Point.text]
  | @fraction after places _ ha hp hpd =>
      refine ⟨ofParts gap sign signGap [] (some ⟨[], after, places⟩), ⟨hg, hs, hn, isRun_nil,
        toNat_integral_ofParts (Nat.zero_le _), Nat.zero_le _, ?_, ?_, ?_⟩,
        rfl, rfl, rfl, ?_, by simp [ofParts]⟩
      · rintro p ⟨⟩
        exact ⟨isRun_nil, ha, hpd, fun h => absurd h hp⟩
      · rintro - p ⟨⟩
        rfl
      · intro h
        exact absurd h hp
      · simp [unsigned, ofParts, Point.text]

theorem unsignedRule_of_wellFormed {n : Number} (hw : n.WellFormed) {tail : List Char}
    (ht : n.point = none → Stops Char.isDigit tail) : UnsignedRule n.unsigned tail := by
  obtain ⟨gap, sign, signGap, whole, integral, point⟩ := n
  cases point with
  | none =>
      simp only [unsigned, Option.map_none, Option.getD_none, List.append_nil]
      exact .whole (hw.whole_ne_nil rfl) hw.whole hw.value_le (ht rfl)
  | some p =>
      obtain ⟨before, after, digits⟩ := p
      obtain ⟨hb, ha, hd, hnil⟩ := hw.point _ rfl
      simp only [unsigned, Option.map_some, Option.getD_some, Point.text, List.append_assoc,
        List.cons_append]
      by_cases hdig : digits = []
      · have hafter : after = [] := hnil hdig
        subst hdig hafter
        exact .point (hw.whole_ne_nil rfl) hw.whole hw.value_le hb
      · by_cases hwhole : whole = []
        · have hbefore : before = [] := hw.before_eq_nil hwhole _ rfl
          subst hwhole hbefore
          exact .fraction ha hdig hd
        · exact .places hwhole hw.whole hw.value_le hb ha hdig hd

/-- **The texts of the rule are the texts of the well-formed numbers.** -/
theorem rule_iff {text tail : List Char} :
    Rule text tail ↔
      ∃ n : Number, n.WellFormed ∧ n.text = text ∧ (n.point = none → Stops Char.isDigit tail) := by
  constructor
  · intro h
    cases h with
    | @unsigned gap text tail hg hu =>
        obtain ⟨n, hw, hgap, hsign, hsg, htext, ht⟩ :=
          hu.exists_number none hg isRun_nil fun _ => rfl
        refine ⟨n, hw, ?_, ht⟩
        rw [Number.text, argument_eq, hgap, hsign, hsg, htext]
        rfl
    | @signed gap signGap text tail sign hg hs hu =>
        obtain ⟨n, hw, hgap, hsign, hsg, htext, ht⟩ :=
          hu.exists_number (some sign) hg hs (by simp)
        refine ⟨n, hw, ?_, ht⟩
        rw [Number.text, argument_eq, hgap, hsign, hsg, htext]
        rfl
  · rintro ⟨n, hw, rfl, ht⟩
    have hu := unsignedRule_of_wellFormed hw ht
    rw [Number.text, argument_eq]
    cases h : n.sign with
    | none =>
        rw [hw.signGap_eq_nil h]
        exact .unsigned hw.gap hu
    | some sign =>
        have hr := Rule.signed sign hw.gap hw.signGap hu
        simpa using hr

end Number

/-! ## The longest number is read -/

theorem Point.WellFormed.exists_read? {point : Point} (hw : point.WellFormed) (tail : List Char) :
    ∃ point' tail', Point.read? (point.text ++ tail) = some (point', tail') ∧
      point.text.length ≤ point'.text.length ∧ (point'.digits = [] → point.digits = []) := by
  obtain ⟨before, after, digits⟩ := point
  have hdot : Stops isBlank ('.' :: (after ++ (digits ++ tail))) := stops_cons.2 (by decide)
  have htext : Point.text ⟨before, after, digits⟩ ++ tail =
      before ++ '.' :: (after ++ (digits ++ tail)) := by
    simp [Point.text]
  rw [htext]
  simp only [Point.read?, takeBlanks_append hw.before hdot, dropBlanks_append hw.before hdot]
  by_cases hd : digits = []
  · have ha : after = [] := hw.after_eq_nil hd
    subst hd ha
    split
    next => exact ⟨_, _, rfl, Nat.le_refl _, fun _ => rfl⟩
    next hn => exact ⟨_, _, rfl, by simp [Point.text], fun h => absurd h hn⟩
  · have hb : Stops isBlank (digits ++ tail) := hw.digits.stops isBlank_eq_false_of_isDigit hd
    have ht : takeDigits (digits ++ tail) = digits ++ takeDigits tail :=
      List.takeWhile_append_of_pos hw.digits
    rw [dropBlanks_append hw.after hb, takeBlanks_append hw.after hb, ht,
      if_neg (by simp [hd])]
    exact ⟨_, _, rfl, by simp [Point.text], by simp [hd]⟩

namespace Number

theorem length_text (n : Number) :
    n.text.length = n.gap.length + n.sign.toList.length + n.signGap.length + n.whole.length +
      ((n.point.map Point.text).getD []).length := by
  simp only [text, argument, List.length_append, List.length_map]
  omega

/-- Where a number can be read, one at least as long is read. -/
theorem WellFormed.exists_read? {n : Number} (hw : n.WellFormed) {tail : List Char}
    (ht : n.point = none → Stops Char.isDigit tail) :
    ∃ n' tail', read? (n.text ++ tail) = some (n', tail') ∧ n.text.length ≤ n'.text.length := by
  obtain ⟨hsome, hnone⟩ := hw.read?_append ht
  cases hp : n.point with
  | none =>
      have hne : n.whole ≠ [] := hw.whole_ne_nil (by simp [places, hp])
      rw [hp] at hsome hnone
      cases hr : Point.read? tail with
      | none => exact ⟨_, _, hnone hr hne, by simp [length_text, hp]⟩
      | some r => exact ⟨_, _, hsome r.1 r.2 hr fun h => hne h.1, by simp [length_text, hp]⟩
  | some p =>
      obtain ⟨p', tail', hr, hle, hd⟩ := (hw.point p hp).exists_read? tail
      have hne : ¬(n.whole = [] ∧ p'.digits = []) :=
        fun h => hw.whole_ne_nil (by simp [places, hp, hd h.2]) h.1
      rw [hp] at hsome
      exact ⟨_, _, hsome p' tail' hr hne, by simpa [length_text, hp] using hle⟩

/-- **What is read is the longest beginning that the rule allows.** -/
theorem isLongest_of_read? {line tail : List Char} {n : Number} (h : read? line = some (n, tail)) :
    IsLongest Rule line n.text tail := by
  obtain ⟨hw, he, ht⟩ := read?_eq_some_iff.1 h
  refine ⟨ht, rule_iff.2 ⟨n, hw, rfl, ?_⟩, ?_⟩
  · intro hp
    rw [Ends, hp] at he
    exact he.1
  · rintro text' tail' rfl hr
    obtain ⟨m, hm, rfl, hs⟩ := rule_iff.1 hr
    obtain ⟨n', tail'', hr', hle⟩ := hm.exists_read? hs
    rw [h] at hr'
    cases hr'
    exact hle

/-- **Nothing is read exactly where the rule allows no beginning.** -/
theorem read?_eq_none_iff {line : List Char} :
    read? line = none ↔ ∀ text tail, text ++ tail = line → ¬Rule text tail := by
  constructor
  · rintro h text tail ht hr
    obtain ⟨m, hm, rfl, hs⟩ := rule_iff.1 hr
    obtain ⟨n', tail', hr', -⟩ := hm.exists_read? hs
    rw [ht, h] at hr'
    cases hr'
  · intro hno
    refine Option.eq_none_iff_forall_ne_some.2 ?_
    rintro ⟨n, tail⟩ h
    have hlong := isLongest_of_read? h
    exact hno _ _ hlong.append_eq hlong.allowed

end Number
end GCode
