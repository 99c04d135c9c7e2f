import GCode.Number.Basic
import GCode.Proofs.Numeral.Value

/-!
# The form of a number and where it ends

A number that has been read keeps its parts as they stood on the line. `Number.WellFormed` says what
each part can be, and `Number.Ends` what the text after a number cannot start with, or else the
number would have been longer.

* `Number.read?_eq_some_iff`: reading gives the number that is well formed, ends before the tail and
  gives back the text together with it. So a number depends on the text after it only through
  `Number.Ends`.
* `Point.read?_eq_some_iff`: the same for the point and the digits after it.
-/

namespace GCode

open Text Numeral

/-! ## Signs -/

def Sign.isSign (c : Char) : Bool := c = '+' || c = '-'

theorem Sign.isSign_char (sign : Sign) : isSign sign.char = true := by
  cases sign <;> decide

theorem isBlank_eq_false_of_isSign (c : Char) (h : Sign.isSign c = true) : isBlank c = false := by
  simp only [Sign.isSign, Bool.or_eq_true, decide_eq_true_eq] at h
  rcases h with rfl | rfl <;> decide

theorem isSign_eq_false_of_isDigit (c : Char) (h : c.isDigit = true) : Sign.isSign c = false := by
  cases hs : Sign.isSign c with
  | false => rfl
  | true =>
      simp only [Sign.isSign, Bool.or_eq_true, decide_eq_true_eq] at hs
      rcases hs with rfl | rfl <;> exact absurd h (by decide)

namespace Sign

theorem read_of_stops {text : List Char} (h : Stops isSign text) :
    read text = (none, [], text) := by
  unfold read
  split
  · exact absurd (stops_cons.1 h) (by decide)
  · exact absurd (stops_cons.1 h) (by decide)
  · rfl

theorem read_char_append (sign : Sign) {gap rest : List Char} (hg : IsRun isBlank gap)
    (hs : Stops isBlank rest) : read (sign.char :: (gap ++ rest)) = (some sign, gap, rest) := by
  cases sign <;> simp only [Sign.char, read, takeBlanks_append hg hs, dropBlanks_append hg hs]

theorem of_read {text gap rest : List Char} {sign : Option Sign} (h : read text = (sign, gap, rest))
    (ht : Stops isBlank text) :
    IsRun isBlank gap ∧ (sign = none → gap = []) ∧ Stops isBlank rest := by
  unfold read at h
  split at h
  next text =>
    cases h
    exact ⟨isRun_takeBlanks text, by simp, stops_dropBlanks text⟩
  next text =>
    cases h
    exact ⟨isRun_takeBlanks text, by simp, stops_dropBlanks text⟩
  next =>
    cases h
    exact ⟨isRun_nil, fun _ => rfl, ht⟩

end Sign

/-! ## Points -/

namespace Point

/-- The parts of a point are blanks, blanks and digits; there are blanks after it only if there are
digits. -/
structure WellFormed (point : Point) : Prop where
  before : IsRun isBlank point.before
  after : IsRun isBlank point.after
  digits : IsRun Char.isDigit point.digits
  after_eq_nil : point.digits = [] → point.after = []

/-- No digit follows: right after the digits of the point, or, if it has none, behind blanks. -/
def Ends (point : Point) (tail : List Char) : Prop :=
  Stops Char.isDigit (if point.digits = [] then dropBlanks tail else tail)

theorem Ends.stops {point : Point} {tail : List Char} (h : point.Ends tail) :
    Stops Char.isDigit tail := by
  unfold Ends at h
  split at h
  next =>
    rw [← takeBlanks_append_dropBlanks tail]
    exact (isRun_takeBlanks tail).stops_append isDigit_eq_false_of_isBlank h
  next => exact h

theorem read?_text_append {point : Point} {tail : List Char} (hw : point.WellFormed)
    (he : point.Ends tail) : read? (point.text ++ tail) = some (point, tail) := by
  have hdot : Stops isBlank ('.' :: (point.after ++ point.digits ++ tail)) :=
    stops_cons.2 (by decide)
  have htext : point.text ++ tail =
      point.before ++ '.' :: (point.after ++ point.digits ++ tail) := by
    simp [text]
  have hstops := he.stops
  rw [htext]
  simp only [read?, takeBlanks_append hw.before hdot, dropBlanks_append hw.before hdot]
  obtain ⟨before, after, digits⟩ := point
  by_cases hd : digits = []
  · have ha : after = [] := hw.after_eq_nil hd
    subst hd ha
    have hnil : takeDigits (dropBlanks tail) = [] := takeWhile_eq_nil he
    simp [hnil]
  · have hb : Stops isBlank (digits ++ tail) := hw.digits.stops isBlank_eq_false_of_isDigit hd
    simp only [List.append_assoc, dropBlanks_append hw.after hb, takeBlanks_append hw.after hb,
      takeDigits_append hw.digits hstops, dropDigits_append hw.digits hstops, if_neg hd]

theorem of_read? {text tail : List Char} {point : Point} (h : read? text = some (point, tail)) :
    point.WellFormed ∧ point.Ends tail := by
  unfold read? at h
  split at h
  next rest hd =>
    dsimp only at h
    split at h
    next hn =>
      cases h
      refine ⟨⟨isRun_takeBlanks text, isRun_nil, isRun_nil, fun _ => rfl⟩, ?_⟩
      have hs := stops_dropDigits (dropBlanks tail)
      have he := takeDigits_append_dropDigits (dropBlanks tail)
      rw [hn, List.nil_append] at he
      rwa [he] at hs
    next hn =>
      cases h
      refine ⟨⟨isRun_takeBlanks text, isRun_takeBlanks rest, isRun_takeDigits _,
        fun he => absurd he hn⟩, ?_⟩
      rw [Ends, if_neg hn]
      exact stops_dropDigits _
  next => cases h

/-- **The point at the head of a text is the one that is well formed and ends before the tail.** -/
theorem read?_eq_some_iff {text tail : List Char} {point : Point} :
    read? text = some (point, tail) ↔
      point.WellFormed ∧ point.Ends tail ∧ point.text ++ tail = text := by
  constructor
  · intro h
    exact ⟨(of_read? h).1, (of_read? h).2, text_append h⟩
  · rintro ⟨hw, he, rfl⟩
    exact read?_text_append hw he

theorem WellFormed.getLast?_text {point : Point} (hw : point.WellFormed) :
    ∃ c ∈ point.text.getLast?, c.isDigit = true ∨ c = '.' := by
  obtain ⟨before, after, digits⟩ := point
  rcases List.eq_nil_or_concat digits with rfl | ⟨digits, c, rfl⟩
  · have ha : after = [] := hw.after_eq_nil rfl
    subst ha
    exact ⟨'.', by simp [text], .inr rfl⟩
  · have hc : c.isDigit = true := hw.digits c (by simp)
    exact ⟨c, by simp [text, List.getLast?_append, List.getLast?_cons], .inl hc⟩

theorem before_eq_nil {text tail : List Char} {point : Point}
    (h : read? text = some (point, tail)) (hs : Stops isBlank text) : point.before = [] := by
  obtain ⟨hw, -, ht⟩ := read?_eq_some_iff.1 h
  have hc : point.before ++ '.' :: (point.after ++ point.digits ++ tail) = [] ++ text := by
    rw [← ht]
    simp [Point.text]
  exact (append_inj_of_run hw.before (stops_cons.2 (by decide)) isRun_nil hs hc).1

theorem read?_eq_none_iff {text : List Char} :
    read? text = none ↔ Stops (· = '.') (dropBlanks text) := by
  unfold read?
  split
  next rest hd =>
    rw [hd]
    dsimp only
    split <;> simp
  next hd =>
    refine ⟨fun _ => ?_, fun _ => rfl⟩
    cases ht : dropBlanks text with
    | nil => exact stops_nil
    | cons c rest =>
        refine stops_cons.2 (decide_eq_false ?_)
        rintro rfl
        exact hd rest ht

end Point

/-! ## Numbers -/

namespace Number

/-- The parts of a number are what their names say: blanks, a sign, digits within the limit and
their value, a point. Blanks stand after a sign only, and there is a digit somewhere. -/
structure WellFormed (n : Number) : Prop where
  gap : IsRun isBlank n.gap
  signGap : IsRun isBlank n.signGap
  signGap_eq_nil : n.sign = none → n.signGap = []
  whole : IsRun Char.isDigit n.whole
  toNat_integral : n.integral.toNat = value n.whole
  value_le : value n.whole ≤ limit.toNat
  point : ∀ p ∈ n.point, p.WellFormed
  before_eq_nil : n.whole = [] → ∀ p ∈ n.point, p.before = []
  whole_ne_nil : n.places = [] → n.whole ≠ []

/-- What follows does not make the number longer: no digit after the last one, and no point, not
even behind blanks, if there is none yet. -/
def Ends (n : Number) (tail : List Char) : Prop :=
  match n.point with
  | none => Stops Char.isDigit tail ∧ Stops (· = '.') (dropBlanks tail)
  | some p => p.Ends tail

theorem WellFormed.isRun_places {n : Number} (hw : n.WellFormed) :
    IsRun Char.isDigit n.places := by
  cases hp : n.point with
  | none => simp [places, hp]
  | some p =>
      have hd : n.places = p.digits := by simp [places, hp]
      rw [hd]
      exact (hw.point p hp).digits

def unsigned (n : Number) : List Char := n.whole ++ (n.point.map Point.text).getD []

theorem argument_eq (n : Number) :
    n.argument = n.sign.toList.map Sign.char ++ n.signGap ++ n.unsigned := by
  simp [argument, unsigned]

theorem WellFormed.stops_unsigned {n : Number} (hw : n.WellFormed) {q : Char → Bool}
    (hd : ∀ c, c.isDigit = true → q c = false) (hp : q '.' = false) (tail : List Char) :
    Stops q (n.unsigned ++ tail) := by
  by_cases he : n.whole = []
  · cases h : n.point with
    | none => exact absurd he (hw.whole_ne_nil (by simp [places, h]))
    | some p =>
        have hb : p.before = [] := hw.before_eq_nil he p h
        have ht : n.unsigned ++ tail = '.' :: (p.after ++ p.digits ++ tail) := by
          simp [unsigned, he, h, Point.text, hb]
        rw [ht]
        exact stops_cons.2 hp
  · rw [unsigned, List.append_assoc]
    exact hw.whole.stops hd he

theorem WellFormed.stops_argument {n : Number} (hw : n.WellFormed) {q : Char → Bool}
    (hs : ∀ c, Sign.isSign c = true → q c = false) (hd : ∀ c, c.isDigit = true → q c = false)
    (hp : q '.' = false) (tail : List Char) : Stops q (n.argument ++ tail) := by
  rw [argument_eq]
  cases h : n.sign with
  | none =>
      rw [hw.signGap_eq_nil h]
      exact hw.stops_unsigned hd hp tail
  | some sign => exact stops_cons.2 (hs _ sign.isSign_char)

theorem WellFormed.dropBlanks_text_append {n : Number} (hw : n.WellFormed) (tail : List Char) :
    dropBlanks (n.text ++ tail) = n.argument ++ tail ∧ takeBlanks (n.text ++ tail) = n.gap := by
  have hs := hw.stops_argument isBlank_eq_false_of_isSign isBlank_eq_false_of_isDigit (by decide)
    tail
  rw [text, List.append_assoc]
  exact ⟨dropBlanks_append hw.gap hs, takeBlanks_append hw.gap hs⟩

theorem WellFormed.argument_ne_nil {n : Number} (hw : n.WellFormed) : n.argument ≠ [] := by
  intro h
  have hne := hw.whole_ne_nil
  simp only [argument, List.append_eq_nil_iff] at h
  cases hp : n.point with
  | none => exact hne (by simp [places, hp]) h.1.2
  | some p => simp [hp, Point.text] at h

theorem WellFormed.read_argument {n : Number} (hw : n.WellFormed) (tail : List Char) :
    Sign.read (n.argument ++ tail) = (n.sign, n.signGap, n.unsigned ++ tail) := by
  rw [argument_eq]
  cases h : n.sign with
  | none =>
      rw [hw.signGap_eq_nil h]
      exact Sign.read_of_stops (hw.stops_unsigned isSign_eq_false_of_isDigit (by decide) tail)
  | some sign =>
      have hs := hw.stops_unsigned isBlank_eq_false_of_isDigit (by decide) tail
      have hr := Sign.read_char_append sign hw.signGap hs
      simpa using hr

theorem WellFormed.stops_point {n : Number} (hw : n.WellFormed) {tail : List Char}
    (he : n.point = none → Stops Char.isDigit tail) :
    Stops Char.isDigit ((n.point.map Point.text).getD [] ++ tail) := by
  cases h : n.point with
  | none => exact he h
  | some p =>
      have ht : (Option.map Point.text (some p)).getD [] ++ tail =
          p.before ++ '.' :: (p.after ++ p.digits ++ tail) := by
        simp [Point.text]
      rw [ht]
      exact (hw.point p h).before.stops_append isDigit_eq_false_of_isBlank
        (stops_cons.2 (by decide))

/-- What is read from the text of a number hangs on the point alone: all parts before it are found
again. -/
theorem WellFormed.read?_append {n : Number} (hw : n.WellFormed) {tail : List Char}
    (he : n.point = none → Stops Char.isDigit tail) :
    (∀ point rest, Point.read? ((n.point.map Point.text).getD [] ++ tail) = some (point, rest) →
      ¬(n.whole = [] ∧ point.digits = []) →
      read? (n.text ++ tail) = some ({ n with point := some point }, rest)) ∧
    (Point.read? ((n.point.map Point.text).getD [] ++ tail) = none → n.whole ≠ [] →
      read? (n.text ++ tail) =
        some ({ n with point := none }, (n.point.map Point.text).getD [] ++ tail)) := by
  have hp := hw.stops_point he
  have hb : bounded? n.whole = some n.integral :=
    (bounded?_eq_some_iff hw.whole).2 ⟨hw.toNat_integral, hw.value_le⟩
  unfold read?
  rw [(hw.dropBlanks_text_append tail).1, (hw.dropBlanks_text_append tail).2,
    hw.read_argument tail]
  simp only [unsigned, List.append_assoc, takeDigits_append hw.whole hp,
    dropDigits_append hw.whole hp, hb]
  constructor
  · intro point rest hr hne
    rw [hr]
    exact if_neg hne
  · intro hr hne
    rw [hr]
    exact if_neg hne

theorem read?_text_append {n : Number} {tail : List Char} (hw : n.WellFormed) (he : n.Ends tail) :
    read? (n.text ++ tail) = some (n, tail) := by
  have hne := hw.whole_ne_nil
  obtain ⟨gap, sign, signGap, whole, integral, point⟩ := n
  cases point with
  | none =>
      have hr : Point.read? tail = none := Point.read?_eq_none_iff.2 he.2
      exact (hw.read?_append fun _ => he.1).2 hr (hne rfl)
  | some p =>
      have hr : Point.read? (p.text ++ tail) = some (p, tail) :=
        Point.read?_text_append (hw.point p rfl) he
      have hd : ¬(whole = [] ∧ p.digits = []) := fun h => hne h.2 h.1
      exact (hw.read?_append fun h => by cases h).1 p tail hr hd

theorem of_read? {text tail : List Char} {n : Number} (h : read? text = some (n, tail)) :
    n.WellFormed ∧ n.Ends tail := by
  obtain ⟨⟨sign, signGap, unsigned⟩, hs⟩ : ∃ r, Sign.read (dropBlanks text) = r := ⟨_, rfl⟩
  obtain ⟨hg, hn, hu⟩ := Sign.of_read hs (stops_dropBlanks text)
  have hwhole := isRun_takeDigits unsigned
  simp only [read?, hs] at h
  split at h
  next => cases h
  next integral hb =>
    obtain ⟨hi, hl⟩ := (bounded?_eq_some_iff hwhole).1 hb
    split at h
    next point tail' hp =>
      split at h
      next => cases h
      next hd =>
        cases h
        obtain ⟨hw, he⟩ := Point.of_read? hp
        refine ⟨⟨isRun_takeBlanks text, hg, hn, hwhole, hi, hl, ?_, ?_, ?_⟩, he⟩
        · rintro p ⟨⟩
          exact hw
        · rintro h0 p ⟨⟩
          -- without whole digits the point starts where the sign left off, behind no blank
          have hall := takeDigits_append_dropDigits unsigned
          rw [show takeDigits unsigned = [] from h0, List.nil_append] at hall
          exact Point.before_eq_nil (hall ▸ hp) hu
        · intro h0 h1
          exact hd ⟨h1, by simpa [places] using h0⟩
    next hp =>
      split at h
      next => cases h
      next hd =>
        cases h
        refine ⟨⟨isRun_takeBlanks text, hg, hn, hwhole, hi, hl, by simp, by simp,
          fun _ => hd⟩, ?_⟩
        exact ⟨stops_dropDigits unsigned, Point.read?_eq_none_iff.1 hp⟩

/-- **The number at the head of a text is the one that is well formed and ends before the tail.** -/
theorem read?_eq_some_iff {text tail : List Char} {n : Number} :
    read? text = some (n, tail) ↔ n.WellFormed ∧ n.Ends tail ∧ n.text ++ tail = text := by
  constructor
  · intro h
    exact ⟨(of_read? h).1, (of_read? h).2, text_append h⟩
  · rintro ⟨hw, he, rfl⟩
    exact read?_text_append hw he

theorem ends_nil (n : Number) : n.Ends [] := by
  rw [Ends]
  split
  · exact ⟨stops_nil, stops_nil⟩
  · rw [Point.Ends]
    split <;> exact stops_nil

theorem WellFormed.text_inj {n m : Number} (hn : n.WellFormed) (hm : m.WellFormed)
    (h : n.text = m.text) : n = m := by
  have hrn := read?_text_append hn n.ends_nil
  have hrm := read?_text_append hm m.ends_nil
  rw [h, hrm] at hrn
  cases hrn
  rfl

/-! ## The edges of a number -/

theorem Ends.stops {n : Number} {tail : List Char} (h : n.Ends tail) : Stops Char.isDigit tail := by
  cases hp : n.point with
  | none =>
      rw [Ends, hp] at h
      exact h.1
  | some p =>
      rw [Ends, hp] at h
      exact Point.Ends.stops h

def front (n : Number) : List Char :=
  n.gap ++ n.sign.toList.map Sign.char ++ n.signGap ++ n.whole

theorem text_eq (n : Number) : n.text = n.front ++ (n.point.map Point.text).getD [] := by
  simp [text, argument, front]

theorem WellFormed.notMem_front {n : Number} (hw : n.WellFormed) : '.' ∉ n.front := by
  have hgap : '.' ∉ n.gap := hw.gap.notMem (by decide)
  have hsignGap : '.' ∉ n.signGap := hw.signGap.notMem (by decide)
  have hwhole : '.' ∉ n.whole := hw.whole.notMem (by decide)
  have hsign : '.' ∉ n.sign.toList.map Sign.char := by
    cases n.sign with
    | none => simp
    | some sign => cases sign <;> decide
  simp [front, hgap, hsignGap, hwhole, hsign]

theorem WellFormed.mem_text_iff {n : Number} (hw : n.WellFormed) :
    '.' ∈ n.text ↔ n.point.isSome := by
  rw [text_eq]
  cases hp : n.point with
  | none => simp [hw.notMem_front]
  | some p => simp [Point.text]

theorem WellFormed.of_mem_text {n : Number} (hw : n.WellFormed) {c : Char} (h : c ∈ n.text) :
    isBlank c = true ∨ Sign.isSign c = true ∨ c.isDigit = true ∨ c = '.' := by
  simp only [text, argument, List.mem_append] at h
  rcases h with hgap | ((hsign | hsignGap) | hwhole) | hpoint
  · exact .inl (hw.gap c hgap)
  · obtain ⟨sign, -, rfl⟩ := List.mem_map.1 hsign
    exact .inr (.inl sign.isSign_char)
  · exact .inl (hw.signGap c hsignGap)
  · exact .inr (.inr (.inl (hw.whole c hwhole)))
  · cases hp : n.point with
    | none => simp [hp] at hpoint
    | some p =>
        have hpw := hw.point p hp
        simp only [hp, Option.map_some, Option.getD_some, Point.text, List.append_assoc,
          List.cons_append, List.mem_append, List.mem_cons] at hpoint
        rcases hpoint with hbefore | rfl | hafter | hdigits
        · exact .inl (hpw.before c hbefore)
        · exact .inr (.inr (.inr rfl))
        · exact .inl (hpw.after c hafter)
        · exact .inr (.inr (.inl (hpw.digits c hdigits)))

theorem WellFormed.getLast?_text {n : Number} (hw : n.WellFormed) :
    ∃ c ∈ n.text.getLast?, c.isDigit = true ∨ c = '.' := by
  cases hp : n.point with
  | none =>
      have hne : n.whole ≠ [] := hw.whole_ne_nil (by simp [places, hp])
      obtain ⟨digits, c, hd⟩ := (List.eq_nil_or_concat n.whole).resolve_left hne
      have hc : c.isDigit = true := hw.whole c (by rw [hd]; simp)
      exact ⟨c, by simp [text, argument, hp, hd, List.getLast?_append], .inl hc⟩
  | some p =>
      obtain ⟨c, hc, h⟩ := (hw.point p hp).getLast?_text
      refine ⟨c, ?_, h⟩
      simp only [text, argument, hp, Option.map_some, Option.getD_some, List.getLast?_append]
      rw [Option.mem_def.1 hc]
      rfl

end Number
end GCode
