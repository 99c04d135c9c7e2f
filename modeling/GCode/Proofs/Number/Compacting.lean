import GCode.Proofs.Number.Form

/-!
# Numbers without their blanks

The blanks of a number stand before it, after its sign and on both sides of its point, and nowhere
else. Without them it is still a number, with the same sign and the same digits.

* `Number.WellFormed.compact`: the number without its blanks is well formed.
* `Number.WellFormed.text_compact`: it is written as the number is, less all spaces and tabs.
-/

namespace GCode

open Text Numeral

namespace Text

/-- A text less its spaces and tabs. -/
def withoutBlanks (text : List Char) : List Char := text.filter fun c => !isBlank c

@[simp] theorem withoutBlanks_nil : withoutBlanks [] = [] := rfl

@[simp] theorem withoutBlanks_append (text rest : List Char) :
    withoutBlanks (text ++ rest) = withoutBlanks text ++ withoutBlanks rest :=
  List.filter_append text rest

theorem withoutBlanks_cons {c : Char} (h : isBlank c = false) (text : List Char) :
    withoutBlanks (c :: text) = c :: withoutBlanks text := by
  simp [withoutBlanks, h]

theorem withoutBlanks_of_isRun {gap : List Char} (h : IsRun isBlank gap) :
    withoutBlanks gap = [] := by
  refine List.filter_eq_nil_iff.2 fun c hc => ?_
  simp [h c hc]

theorem withoutBlanks_eq_self {p : Char → Bool} {text : List Char} (h : IsRun p text)
    (hp : ∀ c, p c = true → isBlank c = false) : withoutBlanks text = text := by
  refine List.filter_eq_self.2 fun c hc => ?_
  simp [hp c (h c hc)]

theorem any_isBlank_withoutBlanks (text : List Char) :
    (withoutBlanks text).any isBlank = false := by
  simp [withoutBlanks]

end Text

/-! ## Points -/

namespace Point

def compact (point : Point) : Point := ⟨[], [], point.digits⟩

theorem WellFormed.compact {point : Point} (h : point.WellFormed) : point.compact.WellFormed :=
  ⟨isRun_nil, isRun_nil, h.digits, fun _ => rfl⟩

theorem WellFormed.text_compact {point : Point} (h : point.WellFormed) :
    point.compact.text = withoutBlanks point.text := by
  have hdot : withoutBlanks ('.' :: point.after) = '.' :: withoutBlanks point.after :=
    withoutBlanks_cons (by decide) _
  simp only [text, withoutBlanks_append, hdot, withoutBlanks_of_isRun h.before,
    withoutBlanks_of_isRun h.after, withoutBlanks_eq_self h.digits isBlank_eq_false_of_isDigit]
  rfl

end Point

/-! ## Numbers -/

namespace Number

def compact (n : Number) : Number :=
  { n with gap := [], signGap := [], point := n.point.map Point.compact }

@[simp] theorem compact_whole (n : Number) : n.compact.whole = n.whole := rfl

theorem point_compact (n : Number) : n.compact.point = n.point.map Point.compact := rfl

@[simp] theorem isSome_point_compact (n : Number) : n.compact.point.isSome = n.point.isSome := by
  simp [point_compact]

@[simp] theorem places_compact (n : Number) : n.compact.places = n.places := by
  cases hp : n.point <;> simp [places, point_compact, hp, Point.compact]

theorem unsigned_compact {n : Number} (hp : n.point.isSome) :
    n.compact.unsigned = n.whole ++ '.' :: n.places := by
  obtain ⟨p, hp⟩ := Option.isSome_iff_exists.1 hp
  simp [unsigned, places, point_compact, hp, Point.compact, Point.text]

theorem text_compact_eq {n : Number} (hp : n.point.isSome) :
    n.compact.text = n.sign.toList.map Sign.char ++ (n.whole ++ '.' :: n.places) := by
  rw [text, argument_eq, unsigned_compact hp]
  simp [compact]

/-- **A number is well formed without its blanks, too.** -/
theorem WellFormed.compact {n : Number} (hw : n.WellFormed) : n.compact.WellFormed where
  gap := isRun_nil
  signGap := isRun_nil
  signGap_eq_nil := fun _ => rfl
  whole := hw.whole
  toNat_integral := hw.toNat_integral
  value_le := hw.value_le
  point := by
    intro p hp
    obtain ⟨point, hpoint, rfl⟩ := Option.map_eq_some_iff.1 hp
    exact (hw.point point hpoint).compact
  before_eq_nil := by
    rintro - p hp
    obtain ⟨point, -, rfl⟩ := Option.map_eq_some_iff.1 hp
    rfl
  whole_ne_nil := by
    rw [places_compact]
    exact hw.whole_ne_nil

theorem withoutBlanks_sign (sign : Option Sign) :
    withoutBlanks (sign.toList.map Sign.char) = sign.toList.map Sign.char := by
  cases sign with
  | none => rfl
  | some sign => cases sign <;> rfl

/-- **Without its blanks a number is written as before, less all spaces and tabs.** -/
theorem WellFormed.text_compact {n : Number} (hw : n.WellFormed) :
    n.compact.text = withoutBlanks n.text := by
  have hpoint : (n.compact.point.map Point.text).getD [] =
      withoutBlanks ((n.point.map Point.text).getD []) := by
    cases hp : n.point with
    | none => simp [point_compact, hp]
    | some p => simpa [point_compact, hp] using (hw.point p hp).text_compact
  simp only [text, argument, withoutBlanks_append, withoutBlanks_of_isRun hw.gap,
    withoutBlanks_of_isRun hw.signGap, withoutBlanks_sign,
    withoutBlanks_eq_self hw.whole isBlank_eq_false_of_isDigit, hpoint]
  rfl

theorem WellFormed.isSpaced_compact {n : Number} (hw : n.WellFormed) :
    n.compact.isSpaced = false := by
  rw [isSpaced, hw.text_compact, any_isBlank_withoutBlanks]

end Number
end GCode
