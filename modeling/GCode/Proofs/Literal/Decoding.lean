import GCode.Field.Reading
import GCode.Proofs.Field.Cases

/-!
# What a quoted text stands for

A quoted text is gone through twice: once to find its end, and once, from its text alone, to decode
it. `Literal.meaning` says in one pass what it stands for, and both agree with it.

* `Literal.read_eq`: the first pass ends where the meaning does, and finds the same escapes.
* `Literal.decode_text`: decoding the text that the first pass has cut out gives the content. The
  closing quote, which is still there, stands for nothing.
* `Literal.body_of_isEscaped_eq_false`: without escapes there is no quote inside, so cutting one off
  at the end cuts off the closing one.
* `ContentReader.next_after`: what a reader gives, call after call.
* `Field.content_of_quote`: all of it together, for the field.
-/

namespace GCode

open Text

namespace Literal

/-- What a quoted text stands for, and where and how it ends. -/
structure Meaning where
  content : List Char
  /-- The text after the quoted one. -/
  tail : List Char
  isClosed : Bool
  usesEscape : Bool
  deriving DecidableEq, Repr

/-- The meaning of a quoted text, from after the opening quote on. -/
def meaning (apostropheEscape : Bool) : List Char → Meaning
  | [] => ⟨[], [], false, false⟩
  | [c] =>
      if c = quote then ⟨[], [], true, false⟩
      else if c = apostrophe ∧ apostropheEscape then ⟨[], [], false, true⟩
      else ⟨[c], [], false, false⟩
  | c :: d :: text =>
      if c = quote ∧ d = quote then
        let rest := meaning apostropheEscape text
        { rest with content := quote :: rest.content, usesEscape := true }
      else if c = quote then ⟨[], d :: text, true, false⟩
      else if c = apostrophe ∧ apostropheEscape then
        let rest := meaning apostropheEscape text
        { rest with content := Text.lowercase d ++ rest.content, usesEscape := true }
      else
        let rest := meaning apostropheEscape (d :: text)
        { rest with content := c :: rest.content }

variable {apostropheEscape : Bool} {c d : Char} {text : List Char}

theorem apostrophe_ne_quote : apostrophe ≠ quote := by decide

/-! ## The two passes, step by step -/

theorem meaning_doubled : meaning apostropheEscape (quote :: quote :: text) =
    { meaning apostropheEscape text with
      content := quote :: (meaning apostropheEscape text).content, usesEscape := true } := by
  rw [meaning, if_pos ⟨rfl, rfl⟩]

theorem meaning_closing (hd : d ≠ quote) :
    meaning apostropheEscape (quote :: d :: text) = ⟨[], d :: text, true, false⟩ := by
  rw [meaning, if_neg fun h => hd h.2, if_pos rfl]

theorem meaning_escaped (he : apostropheEscape = true) :
    meaning apostropheEscape (apostrophe :: d :: text) =
      { meaning apostropheEscape text with
        content := Text.lowercase d ++ (meaning apostropheEscape text).content
        usesEscape := true } := by
  rw [meaning, if_neg fun h => apostrophe_ne_quote h.1, if_neg apostrophe_ne_quote,
    if_pos ⟨rfl, he⟩]

theorem meaning_plain (hq : c ≠ quote) (ha : ¬(c = apostrophe ∧ apostropheEscape = true)) :
    meaning apostropheEscape (c :: text) =
      { meaning apostropheEscape text with
        content := c :: (meaning apostropheEscape text).content } := by
  cases text with
  | nil => simp only [meaning, if_neg hq, if_neg ha]
  | cons d text => rw [meaning, if_neg fun h => hq h.1, if_neg hq, if_neg ha]

theorem meaning_dangling (he : apostropheEscape = true) :
    meaning apostropheEscape [apostrophe] = ⟨[], [], false, true⟩ := by
  rw [meaning, if_neg apostrophe_ne_quote, if_pos ⟨rfl, he⟩]

def escapeOf (apostropheEscape : Bool) : Escape :=
  if apostropheEscape then .quotesAndApostrophes else .quotes

theorem marks_escapeOf : (escapeOf apostropheEscape).marks c = true ↔
    c = quote ∨ (c = apostrophe ∧ apostropheEscape = true) := by
  cases apostropheEscape <;> simp [escapeOf, Escape.marks]

theorem decode_mark_nil {escape : Escape} (h : escape.marks c = true) :
    Content.decode escape [c] = [] := by
  rw [Content.decode, if_pos h]

theorem decode_mark {escape : Escape} (h : escape.marks c = true) :
    Content.decode escape (c :: d :: text) = Escape.expand c d ++ Content.decode escape text := by
  rw [Content.decode, if_pos h]

theorem decode_plain {escape : Escape} (h : ¬escape.marks c = true) :
    Content.decode escape (c :: text) = c :: Content.decode escape text := by
  cases text with
  | nil => simp only [Content.decode, if_neg h]
  | cons d text => rw [Content.decode, if_neg h]

theorem decode_verbatim (text : List Char) : Content.decode .verbatim text = text := by
  induction text with
  | nil => rfl
  | cons c text ih => rw [decode_plain (by simp [Escape.marks]), ih]

/-! ## Both passes agree with the meaning -/

/-- The first pass finds where the meaning ends, whether it is closed and whether it has an
escape. -/
theorem read_eq (text : List Char) :
    (read apostropheEscape text).2 = (meaning apostropheEscape text).tail ∧
      (read apostropheEscape text).1.isClosed = (meaning apostropheEscape text).isClosed ∧
      (read apostropheEscape text).1.isEscaped = (meaning apostropheEscape text).usesEscape := by
  fun_induction read apostropheEscape text with
  | case1 => exact ⟨rfl, rfl, rfl⟩
  | case2 c h =>
      rw [h.1, meaning_dangling h.2]
      exact ⟨rfl, rfl, rfl⟩
  | case3 => exact ⟨rfl, rfl, rfl⟩
  | case4 c hm hq =>
      rw [meaning_plain hq hm]
      exact ⟨rfl, rfl, rfl⟩
  | case5 c d text h ih =>
      rcases h with ⟨rfl, he⟩ | ⟨rfl, rfl⟩
      · rw [meaning_escaped he]
        exact ⟨ih.1, ih.2.1, rfl⟩
      · rw [meaning_doubled]
        exact ⟨ih.1, ih.2.1, rfl⟩
  | case6 d text hm =>
      rw [meaning_closing fun h => hm (.inr ⟨rfl, h⟩)]
      exact ⟨rfl, rfl, rfl⟩
  | case7 c d text hm hq ih =>
      rw [meaning_plain hq fun h => hm (.inl h)]
      exact ih

theorem decode_text (text : List Char) :
    Content.decode (escapeOf apostropheEscape) (read apostropheEscape text).1.text =
      (meaning apostropheEscape text).content := by
  fun_induction read apostropheEscape text with
  | case1 => rfl
  | case2 c h =>
      rw [h.1, meaning_dangling h.2]
      exact decode_mark_nil (marks_escapeOf.2 (.inr ⟨rfl, h.2⟩))
  | case3 => exact decode_mark_nil (marks_escapeOf.2 (.inl rfl))
  | case4 c hm hq =>
      have hn : ¬(escapeOf apostropheEscape).marks c = true := by
        rw [marks_escapeOf, not_or]
        exact ⟨hq, hm⟩
      rw [meaning_plain hq hm]
      exact decode_plain hn
  | case5 c d text h ih =>
      have hc : (escapeOf apostropheEscape).marks c = true := by
        rw [marks_escapeOf]
        rcases h with h | h
        · exact .inr h
        · exact .inl h.1
      rw [Prod.map_fst, text_consEscape, decode_mark hc, ih]
      rcases h with ⟨rfl, he⟩ | ⟨rfl, rfl⟩
      · rw [meaning_escaped he, Escape.expand, if_pos rfl]
      · rw [meaning_doubled, Escape.expand, if_neg (Ne.symm apostrophe_ne_quote)]
        rfl
  | case6 d text hm =>
      rw [meaning_closing fun h => hm (.inr ⟨rfl, h⟩)]
      exact decode_mark_nil (marks_escapeOf.2 (.inl rfl))
  | case7 c d text hm hq ih =>
      have ha : ¬(c = apostrophe ∧ apostropheEscape = true) := fun h => hm (.inl h)
      have hn : ¬(escapeOf apostropheEscape).marks c = true := by
        rw [marks_escapeOf, not_or]
        exact ⟨hq, ha⟩
      rw [Prod.map_fst, text_cons, decode_plain hn, ih, meaning_plain hq ha]

theorem body_of_isEscaped_eq_false (h : (read apostropheEscape text).1.isEscaped = false) :
    quote ∉ (read apostropheEscape text).1.body ∧
      (read apostropheEscape text).1.body = (meaning apostropheEscape text).content := by
  fun_induction read apostropheEscape text with
  | case1 => exact ⟨by simp [unfinished], rfl⟩
  | case2 c hm => cases h
  | case3 => exact ⟨by simp [finished], rfl⟩
  | case4 c hm hq =>
      rw [meaning_plain hq hm]
      exact ⟨by simpa [cons, unfinished] using Ne.symm hq, rfl⟩
  | case5 c d text hm ih => cases h
  | case6 d text hm =>
      rw [meaning_closing fun h => hm (.inr ⟨rfl, h⟩)]
      exact ⟨by simp [finished], rfl⟩
  | case7 c d text hm hq ih =>
      obtain ⟨hb, he⟩ := ih h
      rw [meaning_plain hq fun h => hm (.inl h)]
      exact ⟨by simpa [cons, Ne.symm hq] using hb, congrArg (c :: ·) he⟩

end Literal

/-! ## One character at a time -/

namespace ContentReader

def after (reader : ContentReader) : Nat → ContentReader
  | 0 => reader
  | k + 1 => reader.next.2.after k

/-- **A reader gives the characters that are left one after another, and then nothing for ever.** -/
theorem next_after (reader : ContentReader) (k : Nat) :
    (reader.after k).next.1 = reader.remaining[k]? := by
  induction k generalizing reader with
  | zero =>
      rw [after, (next_eq reader).1]
      exact List.head?_eq_getElem?
  | succ k ih =>
      rw [after, ih, (next_eq reader).2]
      exact List.getElem?_tail

theorem remaining_ofContent (content : Content) : (ofContent content).remaining = content.chars :=
  rfl

end ContentReader

namespace Field

/-! ## The content of a field -/

theorem quotedContent_verbatim {literal : Literal} (hq : quote ∉ literal.body) {kind : ArgumentKind}
    (hk : kind = .textCompact ∧ literal.isClosed = true ∨ kind = .textPlain) (length : Nat) :
    quotedContent kind literal.text length = ⟨literal.body, .verbatim, length⟩ := by
  rcases hk with ⟨rfl, hc⟩ | rfl
  · simp [quotedContent, Literal.text, hc]
  · cases hc : literal.isClosed with
    | true => simp [quotedContent, Literal.text, hc]
    | false =>
        have hlast : literal.body.getLast? ≠ some quote :=
          fun h => hq (List.mem_of_getLast? h)
        simp [quotedContent, Literal.text, hc, hlast]

theorem argumentText_quoted {letter word : Char} {gap : List Char} (hg : IsRun isBlank gap)
    (literal : Literal) (apostropheEscape : Bool) :
    (Field.mk letter word (.quoted gap literal apostropheEscape)).argumentText =
      quote :: literal.text := by
  rw [argumentText, Argument.text]
  exact dropBlanks_append hg (stops_cons.2 (by decide))

theorem kind_quoted (gap : List Char) (literal : Literal) (apostropheEscape : Bool) :
    (Argument.quoted gap literal apostropheEscape).kind =
      if literal.isEscaped then
        if apostropheEscape then .textEscapedApostrophe else .textEscaped
      else if gap = [] ∧ literal.isClosed then .textCompact else .textPlain :=
  rfl

/-- The content of a quoted text: decoded if it has an escape, and its body otherwise. -/
def contentOf (apostropheEscape : Bool) (literal : Literal) : Content :=
  if literal.isEscaped then ⟨literal.text, Literal.escapeOf apostropheEscape, literal.length⟩
  else ⟨literal.body, .verbatim, literal.length⟩

theorem content_quoted {letter word : Char} {gap : List Char} (hg : IsRun isBlank gap)
    (apostropheEscape : Bool) (text : List Char) :
    (Field.mk letter word
        (.quoted gap (Literal.read apostropheEscape text).1 apostropheEscape)).content =
      .ok (contentOf apostropheEscape (Literal.read apostropheEscape text).1) := by
  simp only [content, argumentText_quoted hg, List.tail_cons, kind, kind_quoted, contentOf]
  cases he : (Literal.read apostropheEscape text).1.isEscaped with
  | true => cases apostropheEscape <;> rfl
  | false =>
      have hq := (Literal.body_of_isEscaped_eq_false he).1
      simp only [if_neg Bool.false_ne_true]
      by_cases hc : gap = [] ∧ (Literal.read apostropheEscape text).1.isClosed = true
      · rw [if_pos hc, quotedContent_verbatim hq (.inl ⟨rfl, hc.2⟩)]
      · rw [if_neg hc, quotedContent_verbatim hq (.inr rfl)]

theorem chars_contentOf (apostropheEscape : Bool) (text : List Char) :
    (contentOf apostropheEscape (Literal.read apostropheEscape text).1).chars =
      (Literal.meaning apostropheEscape text).content := by
  rw [contentOf, Content.chars]
  split
  next => exact Literal.decode_text text
  next he =>
    rw [Literal.decode_verbatim]
    exact (Literal.body_of_isEscaped_eq_false (by simpa using he)).2

theorem asWritten?_contentOf (apostropheEscape : Bool) (text : List Char) :
    (contentOf apostropheEscape (Literal.read apostropheEscape text).1).asWritten? =
      if (Literal.meaning apostropheEscape text).usesEscape then none
      else some (Literal.meaning apostropheEscape text).content := by
  obtain ⟨-, -, hesc⟩ := Literal.read_eq text
  rw [← hesc, contentOf]
  cases he : (Literal.read apostropheEscape text).1.isEscaped with
  | true => cases apostropheEscape <;> rfl
  | false =>
      rw [← (Literal.body_of_isEscaped_eq_false he).2]
      rfl

/-- A content that has been decoded from the field of a quoted text gives what the text means: asked
for one character after another, as one text, compared, and as it stands on the line. -/
structure Conveys (field : Field) (decoded : Content) (meaning : Literal.Meaning)
    (source : List Char) : Prop where
  content : field.content = .ok decoded
  next_after : ∀ k, ((ContentReader.ofContent decoded).after k).next.1 = meaning.content[k]?
  text : decoded.text = meaning.content
  isText_iff : ∀ other, decoded.isText other = true ↔ other = meaning.content
  asWritten? : decoded.asWritten? = if meaning.usesEscape then none else some meaning.content
  /-- Without an escape the content stands on the line, before the closing quote and the tail. -/
  append_eq : meaning.usesEscape = false →
    meaning.content ++ (if meaning.isClosed then [quote] else []) ++ meaning.tail = source

/-- **Both passes over a quoted text agree with its meaning.** The field ends where the meaning
does, its content is that of the meaning, and its kind tells the escapes, the closing quote and the
blanks before the opening one. -/
theorem content_of_quote (settings : Settings) {letter : Char} (hl : isWord letter = true)
    {gap : List Char} (hg : IsRun isBlank gap) (text : List Char) :
    let meaning := Literal.meaning settings.apostropheEscape text
    ∃ field decoded,
      read? settings (letter :: (gap ++ quote :: text)) = some (field, meaning.tail) ∧
      field.raw ++ meaning.tail = letter :: (gap ++ quote :: text) ∧
      Conveys field decoded meaning text ∧
      field.kind =
        if meaning.usesEscape then
          if settings.apostropheEscape then .textEscapedApostrophe else .textEscaped
        else if gap = [] ∧ meaning.isClosed then .textCompact else .textPlain := by
  intro meaning
  obtain ⟨htail, hclosed, hesc⟩ :
    (Literal.read settings.apostropheEscape text).2 = meaning.tail ∧
      (Literal.read settings.apostropheEscape text).1.isClosed = meaning.isClosed ∧
      (Literal.read settings.apostropheEscape text).1.isEscaped = meaning.usesEscape :=
    Literal.read_eq text
  have hread := read?_cons_of_quote settings hl hg text
  have happend := raw_append hread
  have hchars := chars_contentOf settings.apostropheEscape text
  have hwritten := asWritten?_contentOf settings.apostropheEscape text
  rw [htail] at hread happend
  refine ⟨_, contentOf settings.apostropheEscape (Literal.read settings.apostropheEscape text).1,
    hread, happend,
    ⟨content_quoted hg settings.apostropheEscape text, ?_, ?_, ?_, hwritten, ?_⟩, ?_⟩
  · intro k
    rw [ContentReader.next_after, ContentReader.remaining_ofContent, hchars]
  · rw [Content.text, hwritten, hchars]
    split <;> rfl
  · intro other
    rw [Content.isText, hchars, decide_eq_true_eq]
    exact eq_comm
  · intro he
    have ht := Literal.text_append settings.apostropheEscape text
    have hb := (Literal.body_of_isEscaped_eq_false (hesc.trans he)).2
    rw [Literal.text, hb, hclosed, htail] at ht
    exact ht
  · rw [kind, kind_quoted, hesc, hclosed]

theorem content_of_quote_dangling :
    isWord 's' = true ∧ IsRun isBlank ['\t'] ∧
      Literal.meaning true "A\"\"''B'\u0130\"\"'".toList =
        ⟨"A\"'Bi\u0307\"".toList, [], false, true⟩ ∧
      ∃ field decoded, read? { apostropheEscape := true }
          ('s' :: (['\t'] ++ quote :: "A\"\"''B'\u0130\"\"'".toList)) = some (field, []) ∧
        field.raw ++ [] = 's' :: (['\t'] ++ quote :: "A\"\"''B'\u0130\"\"'".toList) ∧
        Conveys field decoded (Literal.meaning true "A\"\"''B'\u0130\"\"'".toList)
          "A\"\"''B'\u0130\"\"'".toList ∧
        field.kind = .textEscapedApostrophe :=
  ⟨by decide, isRun_cons.2 ⟨by decide, isRun_nil⟩, by decide,
    content_of_quote { apostropheEscape := true } (by decide)
      (isRun_cons.2 ⟨by decide, isRun_nil⟩) "A\"\"''B'\u0130\"\"'".toList⟩

end Field
end GCode
