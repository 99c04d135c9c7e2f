import GCode.Proofs.Field.Grammar
import GCode.Proofs.Literal.Decoding
import GCode.Proofs.Literal.Form
import GCode.Proofs.Text.Bytes

/-!
# Writing a quoted text

Any text can be quoted. A quote in it is written twice, and so is an apostrophe if apostrophes are
escapes: the second one is then the lower-case form of itself. What is written is read as the text
again, with or without a closing quote at the end of the line.

* `Literal.meaning_encode_append`: what is written stands for the text.
* `Literal.length_read_encode_append`: its length is counted in bytes of the text.
* `Field.quotesText_encode`: a field with the written text has the text as its content.
-/

namespace GCode

open Text

namespace Literal

variable {apostropheEscape : Bool} {c : Char} {text rest : List Char}

/-- A character as it is written in a quoted text: twice if it would be a mark by itself. -/
def encodeChar (apostropheEscape : Bool) (c : Char) : List Char :=
  if c = quote ∨ (c = apostrophe ∧ apostropheEscape = true) then [c, c] else [c]

def encode (apostropheEscape : Bool) (text : List Char) : List Char :=
  text.flatMap (encodeChar apostropheEscape)

theorem encode_cons (c : Char) (text : List Char) :
    encode apostropheEscape (c :: text) =
      encodeChar apostropheEscape c ++ encode apostropheEscape text :=
  List.flatMap_cons

/-! ## One character -/

theorem encodeChar_of_mark (h : c = quote ∨ (c = apostrophe ∧ apostropheEscape = true)) :
    encodeChar apostropheEscape c = [c, c] :=
  if_pos h

theorem encodeChar_plain (hq : c ≠ quote) (ha : ¬(c = apostrophe ∧ apostropheEscape = true)) :
    encodeChar apostropheEscape c = [c] :=
  if_neg fun h => h.elim hq ha

theorem meaning_encodeChar_append (c : Char) (rest : List Char) :
    (meaning apostropheEscape (encodeChar apostropheEscape c ++ rest)).content =
        c :: (meaning apostropheEscape rest).content ∧
      (meaning apostropheEscape (encodeChar apostropheEscape c ++ rest)).tail =
        (meaning apostropheEscape rest).tail := by
  by_cases hq : c = quote
  · rw [encodeChar_of_mark (.inl hq), hq, List.cons_append, List.singleton_append, meaning_doubled]
    exact ⟨rfl, rfl⟩
  · by_cases ha : c = apostrophe ∧ apostropheEscape = true
    · have hlower : Text.lowercase apostrophe = [apostrophe] := by decide
      rw [encodeChar_of_mark (.inr ha), ha.1, List.cons_append, List.singleton_append,
        meaning_escaped ha.2, hlower]
      exact ⟨rfl, rfl⟩
    · rw [encodeChar_plain hq ha, List.singleton_append, meaning_plain hq ha]
      exact ⟨rfl, rfl⟩

theorem length_read_encodeChar_append (c : Char) (rest : List Char) :
    (read apostropheEscape (encodeChar apostropheEscape c ++ rest)).1.length =
      c.utf8Size + (read apostropheEscape rest).1.length := by
  by_cases hm : c = quote ∨ (c = apostrophe ∧ apostropheEscape = true)
  · rw [encodeChar_of_mark hm, List.cons_append, List.singleton_append,
      read_escape (hm.symm.imp_right fun hq => ⟨hq, hq⟩)]
    rfl
  · have hplain := not_or.1 hm
    rw [encodeChar_plain hplain.1 hplain.2, List.singleton_append, read_plain hplain.1 hplain.2]
    rfl

theorem meaning_of_stops (h : Stops (· = quote) rest) :
    meaning apostropheEscape (quote :: rest) = ⟨[], rest, true, false⟩ := by
  cases rest with
  | nil => rfl
  | cons d rest => exact meaning_closing (by simpa using stops_cons.1 h)

/-! ## The whole text -/

/-- **A written text stands for the text**, and what follows it for what it would alone. -/
theorem meaning_encode_append (text rest : List Char) :
    (meaning apostropheEscape (encode apostropheEscape text ++ rest)).content =
        text ++ (meaning apostropheEscape rest).content ∧
      (meaning apostropheEscape (encode apostropheEscape text ++ rest)).tail =
        (meaning apostropheEscape rest).tail := by
  induction text with
  | nil => exact ⟨rfl, rfl⟩
  | cons c text ih =>
      obtain ⟨hcontent, htail⟩ := ih
      rw [encode_cons, List.append_assoc, (meaning_encodeChar_append c _).1,
        (meaning_encodeChar_append c _).2, hcontent, htail]
      exact ⟨rfl, rfl⟩

/-- **A written text is counted in bytes of the text.** -/
theorem length_read_encode_append (text rest : List Char) :
    (read apostropheEscape (encode apostropheEscape text ++ rest)).1.length =
      byteLength text + (read apostropheEscape rest).1.length := by
  induction text with
  | nil => exact (Nat.zero_add _).symm
  | cons c text ih =>
      rw [encode_cons, List.append_assoc, length_read_encodeChar_append, ih, byteLength_cons,
        Nat.add_assoc]

end Literal

namespace Field

variable {letter : Char} {gap : List Char}

/-- A line starts with a field that has a quoted text, and this text stands for the given one: read
character by character, as a whole, compared, and counted in bytes. -/
def QuotesText (settings : Settings) (line text tail : List Char) : Prop :=
  ∃ field decoded, read? settings line = some (field, tail) ∧ field.kind.form = .quoted ∧
    field.content = .ok decoded ∧
    (∀ k, ((ContentReader.ofContent decoded).after k).next.1 = text[k]?) ∧
    decoded.text = text ∧ (∀ other, decoded.isText other = true ↔ other = text) ∧
    decoded.length = byteLength text

theorem quotesText_of_meaning (settings : Settings) (hl : isWord letter = true)
    (hg : IsRun isBlank gap) {source text tail : List Char}
    (hcontent : (Literal.meaning settings.apostropheEscape source).content = text)
    (htail : (Literal.meaning settings.apostropheEscape source).tail = tail)
    (hlength : (Literal.read settings.apostropheEscape source).1.length = byteLength text) :
    QuotesText settings (letter :: (gap ++ quote :: source)) text tail := by
  have hread := read?_cons_of_quote settings hl hg source
  have hchars := chars_contentOf settings.apostropheEscape source
  have hwritten := asWritten?_contentOf settings.apostropheEscape source
  rw [(Literal.read_eq source).1, htail] at hread
  rw [hcontent] at hchars hwritten
  refine ⟨_, _, hread, form_kind_quoted _ _ _, content_quoted hg settings.apostropheEscape source,
    ?_, ?_, ?_, ?_⟩
  · intro k
    rw [ContentReader.next_after, ContentReader.remaining_ofContent, hchars]
  · rw [Content.text, hwritten, hchars]
    split <;> rfl
  · intro other
    rw [Content.isText, hchars, decide_eq_true_eq]
    exact eq_comm
  · rw [← hlength, contentOf]
    split <;> rfl

theorem quotesText_encode_append (settings : Settings) (hl : isWord letter = true)
    (hg : IsRun isBlank gap) (text : List Char) {ending tail : List Char}
    (hcontent : (Literal.meaning settings.apostropheEscape ending).content = [])
    (htail : (Literal.meaning settings.apostropheEscape ending).tail = tail)
    (hlength : (Literal.read settings.apostropheEscape ending).1.length = 0) :
    QuotesText settings
      (letter :: (gap ++ quote :: (Literal.encode settings.apostropheEscape text ++ ending)))
      text tail := by
  refine quotesText_of_meaning settings hl hg ?_ ?_ ?_
  · rw [(Literal.meaning_encode_append text ending).1, hcontent, List.append_nil]
  · rw [(Literal.meaning_encode_append text ending).2, htail]
  · rw [Literal.length_read_encode_append, hlength, Nat.add_zero]

/-- **Every text can be quoted**: what is written between quotes, or from an opening quote to the
end of the line, is read as the text. -/
theorem quotesText_encode (settings : Settings) (hl : isWord letter = true)
    (hg : IsRun isBlank gap) (text : List Char) {rest : List Char} (hr : Stops (· = quote) rest) :
    QuotesText settings
        (letter :: (gap ++ quote ::
          (Literal.encode settings.apostropheEscape text ++ quote :: rest))) text rest ∧
      QuotesText settings
        (letter :: (gap ++ quote :: Literal.encode settings.apostropheEscape text)) text [] := by
  have hclosed : Literal.meaning settings.apostropheEscape (quote :: rest) =
      ⟨[], rest, true, false⟩ := Literal.meaning_of_stops hr
  have hopen : Literal.meaning settings.apostropheEscape [] = ⟨[], [], false, false⟩ := by
    rw [Literal.meaning]
  constructor
  · refine quotesText_encode_append settings hl hg text ?_ ?_ ?_
    · rw [hclosed]
    · rw [hclosed]
    · rw [Literal.read_closing hr]
      rfl
  · have hunclosed := quotesText_encode_append settings hl hg text
      (congrArg Literal.Meaning.content hopen) (congrArg Literal.Meaning.tail hopen) ?_
    · rwa [List.append_nil] at hunclosed
    · rw [Literal.read]
      rfl

theorem quotesText_encode_marks :
    isWord 's' = true ∧ IsRun isBlank ['\t'] ∧ Stops (· = quote) "' X1".toList ∧
      Literal.encode true "\"it's\u0130'\"".toList = "\"\"it''s\u0130''\"\"".toList ∧
      QuotesText { apostropheEscape := true }
        ('s' :: (['\t'] ++ quote ::
          (Literal.encode true "\"it's\u0130'\"".toList ++ quote :: "' X1".toList)))
        "\"it's\u0130'\"".toList "' X1".toList ∧
      QuotesText { apostropheEscape := true }
        ('s' :: (['\t'] ++ quote :: Literal.encode true "\"it's\u0130'\"".toList))
        "\"it's\u0130'\"".toList [] :=
  ⟨by decide, isRun_cons.2 ⟨by decide, isRun_nil⟩, stops_cons.2 (by decide), by decide,
    quotesText_encode { apostropheEscape := true } (by decide)
      (isRun_cons.2 ⟨by decide, isRun_nil⟩) "\"it's\u0130'\"".toList
      (stops_cons.2 (by decide))⟩

end Field
end GCode
