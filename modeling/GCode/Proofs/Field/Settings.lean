import GCode.Proofs.Code.Packing
import GCode.Proofs.Field.Form
import GCode.Proofs.Literal.Decoding
import GCode.Proofs.Settings.LetterCase

/-!
# Fields under other settings

Settings say what is made of a field: the letter case of its word, the scale of its number and how
its text is decoded. Where it ends hangs on them in one way only, for an apostrophe may keep a quote
from closing a text. If two settings agree on apostrophes, or the line has none, both find the same
field, and `Field.under` is what the one makes of a field that the other has read.

* `Field.read?_under`: the field that is read under other settings.
* `Field.Alike`, `Field.alike_under`: settings that agree on apostrophes differ in the letter case
  of the word and in the scaled number.
* `Field.AlikeButKind`, `Field.alikeButKind_under`: without apostrophes, what they do shows only in
  the kind.
-/

namespace GCode

open Text

/-- Whether two settings find the same ends of quoted texts on a line. -/
def Settings.CutsAlike (settings other : Settings) (line : List Char) : Prop :=
  settings.apostropheEscape = other.apostropheEscape ∨ apostrophe ∉ line

namespace Settings.CutsAlike

variable {settings other : Settings} {line text : List Char}

theorem symm (h : settings.CutsAlike other line) : other.CutsAlike settings line :=
  h.imp_left Eq.symm

theorem mono (h : settings.CutsAlike other line) (ht : text ⊆ line) :
    settings.CutsAlike other text :=
  h.imp_right fun hn hm => hn (ht hm)

theorem literal_read (h : settings.CutsAlike other line) :
    Literal.read settings.apostropheEscape line = Literal.read other.apostropheEscape line := by
  rcases h with he | hn
  · rw [he]
  · exact Literal.read_of_notMem hn _ _

end Settings.CutsAlike

/-! ## What other settings make of a field -/

namespace Argument

def under (settings : Settings) : Argument → Argument
  | .absent => .absent
  | .number n _ => .number n (n.scaled? settings)
  | .quoted gap literal _ => .quoted gap literal settings.apostropheEscape

variable {settings other : Settings} {argument : Argument} {tail : List Char}

@[simp] theorem text_under : (argument.under settings).text = argument.text := by
  cases argument <;> rfl

theorem ends_under : (argument.under settings).Ends tail ↔ argument.Ends tail := by
  cases argument <;> exact Iff.rfl

theorem WellFormed.under (hw : argument.WellFormed settings)
    (hc : settings.CutsAlike other argument.text) : (argument.under other).WellFormed other := by
  cases argument with
  | absent => trivial
  | number n scaled => exact ⟨hw.1, rfl⟩
  | quoted gap literal apostropheEscape =>
      obtain ⟨hg, rfl, hl⟩ := hw
      have hliteral : literal.text ⊆ gap ++ quote :: literal.text :=
        fun c hm => List.mem_append_right gap (List.mem_cons_of_mem quote hm)
      exact ⟨hg, rfl, (hc.mono hliteral).literal_read.symm.trans hl⟩

end Argument

namespace Field

def under (settings : Settings) (field : Field) : Field :=
  ⟨field.letter, settings.letterCase.apply field.letter, field.argument.under settings⟩

variable {settings other : Settings} {line tail : List Char} {field : Field}

@[simp] theorem raw_under : (field.under settings).raw = field.raw := by
  simp [raw, under]

theorem WellFormed.under (hw : field.WellFormed settings)
    (hc : settings.CutsAlike other field.raw) : (field.under other).WellFormed other :=
  ⟨hw.isWord, rfl, hw.argument.under (hc.mono (List.subset_cons_self _ _))⟩

/-- **Settings that cut a line alike read the same field**, each with its own word and values. -/
theorem read?_under (hc : settings.CutsAlike other line)
    (h : read? settings line = some (field, tail)) :
    read? other line = some (field.under other, tail) := by
  obtain ⟨hw, he, rfl⟩ := read?_eq_some_iff.1 h
  have hraw : settings.CutsAlike other field.raw := hc.mono (List.subset_append_left _ _)
  exact read?_eq_some_iff.2 ⟨hw.under hraw, Argument.ends_under.2 he, by rw [raw_under]⟩

theorem read?_eq_none_under (hc : settings.CutsAlike other line)
    (h : read? settings line = none) : read? other line = none := by
  cases ho : read? other line with
  | none => rfl
  | some r =>
      -- what the other settings read, these would read too
      rw [read?_under hc.symm ho] at h
      cases h

end Field

/-! ## Readings that no settings change -/

namespace Field

variable {settings other : Settings} {field : Field}

theorem integer_under : (field.under settings).integer = field.integer := by
  obtain ⟨letter, word, _ | _ | _⟩ := field <;> rfl

theorem exactValue_under (reading : Reading) :
    (field.under settings).exactValue reading = field.exactValue reading := by
  obtain ⟨letter, word, _ | _ | _⟩ := field <;> rfl

theorem single_under : (field.under settings).single = field.single := by
  rw [single, single, exactValue_under]

theorem double_under : (field.under settings).double = field.double := by
  rw [double, double, exactValue_under]

theorem decimal_under : (field.under settings).decimal = field.decimal := by
  obtain ⟨letter, word, _ | _ | _⟩ := field <;> rfl

end Field

/-! ## Codes -/

structure Code.SameNumber (code again : Code) : Prop where
  isValid : again.isValid = code.isValid
  number : again.number = code.number
  subcode : again.subcode = code.subcode

namespace Code

variable {word word' : Char}

theorem SameNumber.refl (code : Code) : code.SameNumber code := ⟨rfl, rfl, rfl⟩

theorem sameNumber_pack (ha : word.isAlpha = true) (ha' : word'.isAlpha = true) (number : UInt16)
    (subcode : UInt8) : (pack word number subcode).SameNumber (pack word' number subcode) := by
  have hw := toNat_of_isAlpha ha
  have hw' := toNat_of_isAlpha ha'
  refine ⟨?_, ?_, ?_⟩
  · rw [isValid_pack_iff.2 hw, isValid_pack_iff.2 hw']
  · rw [number_pack hw, number_pack hw']
  · rw [subcode_pack hw, subcode_pack hw']

theorem sameNumber_codeOf (ha : word.isAlpha = true) (ha' : word'.isAlpha = true) (n : Number) :
    (Field.codeOf word n).SameNumber (Field.codeOf word' n) := by
  unfold Field.codeOf
  split
  · split
    · exact sameNumber_pack ha ha' _ _
    · exact .refl _
  · split
    · split
      · exact sameNumber_pack ha ha' _ _
      · exact .refl _
    · exact .refl _

end Code

namespace Field

variable {settings other : Settings} {field : Field}

theorem code_number (letter word : Char) (n : Number) (scaled : Option Int32) :
    (Field.mk letter word (.number n scaled)).code =
      if word.isAlpha then codeOf word n else Code.invalid :=
  rfl

/-- **The letter case of a word does not change the code** but for the word itself. -/
theorem sameNumber_code_under (hw : field.WellFormed settings) :
    field.code.SameNumber (field.under other).code := by
  obtain ⟨letter, word, argument⟩ := field
  obtain rfl : word = settings.letterCase.apply letter := hw.word
  cases argument with
  | absent => exact .refl _
  | quoted gap literal apostropheEscape => exact .refl _
  | number n scaled =>
      have ha := LetterCase.isAlpha_apply settings.letterCase letter
      have ha' := LetterCase.isAlpha_apply other.letterCase letter
      rw [under, Argument.under, code_number, code_number]
      cases hl : letter.isAlpha with
      | true =>
          rw [hl] at ha ha'
          rw [if_pos ha, if_pos ha']
          exact Code.sameNumber_codeOf ha ha' n
      | false =>
          rw [hl] at ha ha'
          rw [ha, ha']
          exact .refl _

end Field

/-! ## Scaled numbers -/

theorem Number.scaled?_congr {settings other : Settings} (h : settings.scale = other.scale)
    (n : Number) : n.scaled? settings = n.scaled? other := by
  have hfactor : settings.scaleFactor = other.scaleFactor := by
    rw [Settings.scaleFactor, Settings.scaleFactor, h]
  have hmax : settings.maxScalable = other.maxScalable := by
    rw [Settings.maxScalable, Settings.maxScalable, hfactor]
  have hwhole : scaleWhole? settings n.isNegative n.integral =
      scaleWhole? other n.isNegative n.integral := by
    -- `simp` would leave the two tests with different instances
    unfold scaleWhole?
    rw [hmax, hfactor]
  simp only [scaled?, hwhole, h]

theorem Field.scaled_under {settings other : Settings} {field : Field}
    (hw : field.WellFormed settings) (h : settings.scale = other.scale) :
    (field.under other).scaled = field.scaled := by
  obtain ⟨letter, word, argument⟩ := field
  cases argument with
  | absent => rfl
  | quoted gap literal apostropheEscape => rfl
  | number n scaled =>
      obtain ⟨-, hscaled⟩ : n.WellFormed ∧ scaled = n.scaled? settings := hw.argument
      simp only [Field.scaled, under, Argument.under, hscaled, Number.scaled?_congr h]

/-! ## Settings that agree on apostrophes -/

namespace Field

variable {settings other : Settings} {field : Field}

/-- Of the settings, kind and content hang only on what apostrophes do. -/
theorem kind_content_under (hw : field.WellFormed settings)
    (h : settings.apostropheEscape = other.apostropheEscape) :
    (field.under other).kind = field.kind ∧ (field.under other).content = field.content := by
  obtain ⟨letter, word, argument⟩ := field
  cases argument with
  | absent => exact ⟨rfl, rfl⟩
  | number n scaled => exact ⟨rfl, rfl⟩
  | quoted gap literal apostropheEscape =>
      obtain ⟨-, rfl, -⟩ := hw.argument
      rw [under, Argument.under, ← h]
      exact ⟨rfl, rfl⟩

/-- The same field under settings that differ in letter case and scale: the words are two cases of
one letter, the codes have the same number, and the scaled integers are the same if the scales
are. -/
structure Alike (settings other : Settings) (field again : Field) : Prop where
  raw : again.raw = field.raw
  letter : again.letter = field.letter
  word : field.word = settings.letterCase.apply field.letter
  word_again : again.word = other.letterCase.apply field.letter
  kind : again.kind = field.kind
  integer : again.integer = field.integer
  single : again.single = field.single
  double : again.double = field.double
  decimal : again.decimal = field.decimal
  content : again.content = field.content
  code : field.code.SameNumber again.code
  scaled : settings.scale = other.scale → again.scaled = field.scaled

theorem alike_under (hw : field.WellFormed settings)
    (h : settings.apostropheEscape = other.apostropheEscape) :
    Alike settings other field (field.under other) := by
  obtain ⟨hkind, hcontent⟩ := kind_content_under hw h
  exact
    { raw := raw_under
      letter := rfl
      word := hw.word
      word_again := rfl
      kind := hkind
      integer := integer_under
      single := single_under
      double := double_under
      decimal := decimal_under
      content := hcontent
      code := sameNumber_code_under hw
      scaled := scaled_under hw }

end Field

/-! ## Lines without apostrophes -/

/-- What can be seen of a content: its characters, which a reader gives one by one, its text on the
line if it needs no decoding, and its length. -/
def Content.shown (content : Content) : List Char × Option (List Char) × Nat :=
  (content.chars, content.asWritten?, content.length)

namespace Literal

theorem marks_escapeOf_of_ne {c : Char} (h : c ≠ apostrophe) (apostropheEscape : Bool) :
    (escapeOf apostropheEscape).marks c = Escape.quotes.marks c := by
  rw [Bool.eq_iff_iff, marks_escapeOf]
  simp [Escape.marks, h]

theorem decode_of_notMem {text : List Char} (h : apostrophe ∉ text) (apostropheEscape : Bool) :
    Content.decode (escapeOf apostropheEscape) text = Content.decode .quotes text := by
  fun_induction Content.decode .quotes text with
  | case1 => rfl
  | case2 c hm =>
      have ha : c ≠ apostrophe := fun ha => h (ha ▸ List.mem_singleton_self c)
      exact decode_mark_nil ((marks_escapeOf_of_ne ha _).trans hm)
  | case3 c hm =>
      have ha : c ≠ apostrophe := fun ha => h (ha ▸ List.mem_singleton_self c)
      rw [← marks_escapeOf_of_ne ha apostropheEscape] at hm
      exact decode_plain hm
  | case4 c d text hm ih =>
      have ha : c ≠ apostrophe := fun ha => h (ha ▸ List.mem_cons_self)
      have ht : apostrophe ∉ text :=
        fun ht => h (List.mem_cons_of_mem c (List.mem_cons_of_mem d ht))
      rw [decode_mark ((marks_escapeOf_of_ne ha _).trans hm), ih ht]
  | case5 c d text hm ih =>
      have ha : c ≠ apostrophe := fun ha => h (ha ▸ List.mem_cons_self)
      rw [← marks_escapeOf_of_ne ha apostropheEscape] at hm
      rw [decode_plain hm, ih fun ht => h (List.mem_cons_of_mem c ht)]

end Literal

namespace Field

variable {settings other : Settings} {field : Field}

theorem shown_contentOf {literal : Literal} (h : apostrophe ∉ literal.text)
    (apostropheEscape : Bool) :
    (contentOf apostropheEscape literal).shown = (contentOf false literal).shown := by
  simp only [contentOf]
  split
  next =>
    have hchars := Literal.decode_of_notMem h apostropheEscape
    cases apostropheEscape with
    | false => rfl
    | true => exact congrArg (·, none, literal.length) hchars
  next => rfl

theorem content_of_wellFormed {letter word : Char} {gap : List Char} {literal : Literal}
    {apostropheEscape : Bool} (hg : IsRun isBlank gap) (hl : literal.WellFormed apostropheEscape) :
    (Field.mk letter word (.quoted gap literal apostropheEscape)).content =
      .ok (contentOf apostropheEscape literal) := by
  have hself : Literal.read apostropheEscape literal.text = (literal, []) := hl
  have hcontent :
      (Field.mk letter word (.quoted gap (Literal.read apostropheEscape literal.text).1
        apostropheEscape)).content =
      .ok (contentOf apostropheEscape (Literal.read apostropheEscape literal.text).1) :=
    content_quoted hg apostropheEscape literal.text
  rwa [hself] at hcontent

theorem map_shown_content_under (hw : field.WellFormed settings) (h : apostrophe ∉ field.raw) :
    (field.under other).content.map Content.shown = field.content.map Content.shown := by
  have hunder : (field.under other).WellFormed other := hw.under (.inr h)
  obtain ⟨letter, word, argument⟩ := field
  cases argument with
  | absent => rfl
  | number n scaled => rfl
  | quoted gap literal apostropheEscape =>
      obtain ⟨hg, -, hl⟩ := hw.argument
      obtain ⟨-, -, hl'⟩ := hunder.argument
      have hliteral : apostrophe ∉ literal.text := fun hm => h <|
        List.mem_cons_of_mem letter (List.mem_append_right gap (List.mem_cons_of_mem quote hm))
      rw [under, Argument.under, content_of_wellFormed hg hl, content_of_wellFormed hg hl']
      exact congrArg Except.ok
        ((shown_contentOf hliteral _).trans (shown_contentOf hliteral _).symm)

/-- The same field where apostrophes are escapes and where they are not: all that differs is the
kind of a text with escapes. -/
structure AlikeButKind (field again : Field) : Prop where
  raw : again.raw = field.raw
  letter : again.letter = field.letter
  word : again.word = field.word
  kind : again.kind = if field.kind = .textEscaped then .textEscapedApostrophe else field.kind
  integer : again.integer = field.integer
  scaled : again.scaled = field.scaled
  single : again.single = field.single
  double : again.double = field.double
  decimal : again.decimal = field.decimal
  content : again.content.map Content.shown = field.content.map Content.shown
  code : again.code = field.code

/-- What apostrophes do is told by the kind of a text with escapes, and by no other kind. -/
theorem kind_under_of_escape (hw : field.WellFormed settings)
    (hs : settings.apostropheEscape = false) (ho : other.apostropheEscape = true) :
    (field.under other).kind =
      if field.kind = .textEscaped then .textEscapedApostrophe else field.kind := by
  obtain ⟨letter, word, argument⟩ := field
  cases argument with
  | absent => rfl
  | number n scaled =>
      have hnumeric : (Field.mk letter word (.number n scaled)).kind.isNumeric = true :=
        isNumeric_kind_iff.2 ⟨n, scaled, rfl⟩
      rw [if_neg fun hk => by rw [hk] at hnumeric; cases hnumeric]
      rfl
  | quoted gap literal apostropheEscape =>
      obtain ⟨-, rfl, -⟩ := hw.argument
      -- with an escape the kind tells the settings, without one it is the same on both sides
      simp only [kind, under, Argument.under, kind_quoted, hs, ho]
      split
      · rfl
      · split <;> rfl

theorem code_under (hw : field.WellFormed settings) (h : settings.letterCase = other.letterCase) :
    (field.under other).code = field.code := by
  obtain ⟨letter, word, argument⟩ := field
  obtain rfl : word = settings.letterCase.apply letter := hw.word
  cases argument with
  | absent => rfl
  | quoted gap literal apostropheEscape => rfl
  | number n scaled => rw [under, Argument.under, code_number, code_number, h]

/-- **Without apostrophes, what they do shows only in the kind.** -/
theorem alikeButKind_under (hw : field.WellFormed (settings.withApostropheEscape false))
    (h : apostrophe ∉ field.raw) :
    AlikeButKind field (field.under (settings.withApostropheEscape true)) where
  raw := raw_under
  letter := rfl
  word := hw.word.symm
  kind := kind_under_of_escape hw rfl rfl
  integer := integer_under
  scaled := scaled_under hw rfl
  single := single_under
  double := double_under
  decimal := decimal_under
  content := map_shown_content_under hw h
  code := code_under hw rfl

end Field
end GCode
