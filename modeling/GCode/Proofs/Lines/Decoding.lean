import GCode.Proofs.Lines.Splitting

/-!
# The lines of a text

An input is cut at its terminators byte by byte, and each line is read as UTF-8 by itself. This
cannot cut a character in two, because the bytes of a terminator stand for nothing but themselves
(`isPlain_utf8EncodeChar`). So the lines of the UTF-8 form of a text are those of `Text.lines`, which
cuts the text itself, character by character.

* `exists_splits_toBytes`: the split of a text's UTF-8 form.
* `Splits.exists_toBytes_eq`: where all pieces are texts, so is the whole input.
* `LineSource.lines_of_bytes`: all lines of an input can be read exactly if it is a text, and then
  they are the lines of the text.
-/

namespace GCode

open Text

/-- The lines of a text. It is cut at `\r\n`, `\r` and `\n`, and what is left is the last line. -/
def Text.lines : List Char → List (List Char)
  | [] => [[]]
  | '\r' :: '\n' :: text => [] :: lines text
  | c :: text =>
      if c = '\r' ∨ c = '\n' then [] :: lines text else (lines text).modifyHead (c :: ·)

variable {bytes : List UInt8} {split : Split}

/-! ## From a text to its bytes -/

theorem isPlain_utf8EncodeChar {c : Char} (hr : c ≠ '\r') (hn : c ≠ '\n') :
    IsPlain (String.utf8EncodeChar c) := by
  intro byte hm
  constructor
  · rintro rfl
    have hcode : c.toNat = 10 := (mem_utf8EncodeChar_iff (by decide)).1 hm
    exact hn (Char.toNat_inj.1 hcode)
  · rintro rfl
    have hcode : c.toNat = 13 := (mem_utf8EncodeChar_iff (by decide)).1 hm
    exact hr (Char.toNat_inj.1 hcode)

theorem head?_toBytes_ne {text : List Char} (h : text.head? ≠ some '\n') :
    (toBytes text).head? ≠ some LineSource.lineFeed := by
  intro hhead
  cases text with
  | nil => cases hhead
  | cons c text =>
      have hmem : LineSource.lineFeed ∈ String.utf8EncodeChar c := by
        obtain ⟨byte, bytes, he⟩ :=
          List.exists_cons_of_ne_nil (String.utf8EncodeChar_ne_nil (c := c))
        rw [toBytes_cons, he, List.cons_append, List.head?_cons] at hhead
        rw [he, Option.some.inj hhead]
        exact List.mem_cons_self
      have hcode : c.toNat = 10 := (mem_utf8EncodeChar_iff (by decide)).1 hmem
      exact h (congrArg some (Char.toNat_inj.1 hcode))

/-- Bytes that end no line belong to the first piece. -/
theorem Splits.prepend {front : List UInt8} (hp : IsPlain front) (h : Splits bytes split) :
    ∃ split', Splits (front ++ bytes) split' ∧
      split'.pieces = split.pieces.modifyHead (front ++ ·) := by
  have hplain {rest : List UInt8} (hrest : IsPlain rest) : IsPlain (front ++ rest) := by
    intro byte hm
    rcases List.mem_append.1 hm with hm | hm
    · exact hp byte hm
    · exact hrest byte hm
  cases h with
  | last hb => exact ⟨_, .last (hplain hb), rfl⟩
  | @line bytes rest terminator split hb hl hs =>
      have hline := Splits.line (hplain hb) hl hs
      rw [List.append_assoc] at hline
      exact ⟨_, hline, rfl⟩

/-- **The split of a text's UTF-8 form has the lines of the text for its pieces.** -/
theorem exists_splits_toBytes (text : List Char) :
    ∃ split, Splits (toBytes text) split ∧ split.pieces = (Text.lines text).map toBytes := by
  fun_induction Text.lines text with
  | case1 => exact ⟨_, .last isPlain_nil, rfl⟩
  | case2 text ih =>
      obtain ⟨split, hs, hpieces⟩ := ih
      have hline := Splits.line isPlain_nil (Terminator.isLongest_both (toBytes text)) hs
      exact ⟨_, hline, congrArg ([] :: ·) hpieces⟩
  | case3 c text hboth hterminator ih =>
      obtain ⟨split, hs, hpieces⟩ := ih
      rcases hterminator with rfl | rfl
      · have hhead : (toBytes text).head? ≠ some LineSource.lineFeed := by
          refine head?_toBytes_ne ?_
          intro hh
          obtain ⟨rest, rfl⟩ := List.head?_eq_some_iff.1 hh
          exact hboth rest rfl rfl
        have hline := Splits.line isPlain_nil (Terminator.isLongest_carriageReturn hhead) hs
        exact ⟨_, hline, congrArg ([] :: ·) hpieces⟩
      · have hline := Splits.line isPlain_nil (Terminator.isLongest_lineFeed (toBytes text)) hs
        exact ⟨_, hline, congrArg ([] :: ·) hpieces⟩
  | case4 c text _ hplain ih =>
      obtain ⟨split, hs, hpieces⟩ := ih
      obtain ⟨hr, hn⟩ := not_or.1 hplain
      obtain ⟨split', hs', hpieces'⟩ := hs.prepend (isPlain_utf8EncodeChar hr hn)
      refine ⟨split', hs', ?_⟩
      rw [hpieces', hpieces]
      cases Text.lines text <;> rfl

/-! ## From the bytes to a text -/

def Terminator.text : Terminator → List Char
  | .lineFeed => ['\n']
  | .carriageReturn => ['\r']
  | .both => ['\r', '\n']

theorem Terminator.toBytes_text (terminator : Terminator) :
    toBytes terminator.text = terminator.bytes := by
  cases terminator <;> rfl

/-- **Where all pieces are texts, so is the whole input**: the texts with their terminators between
them. -/
theorem Splits.exists_toBytes_eq (h : Splits bytes split)
    (hpieces : ∀ piece ∈ split.pieces, ∃ text, toBytes text = piece) :
    ∃ text, toBytes text = bytes := by
  induction h with
  | @last bytes _ => exact hpieces bytes (List.mem_singleton_self bytes)
  | @line bytes rest terminator split _ _ _ ih =>
      obtain ⟨text, rfl⟩ := hpieces bytes List.mem_cons_self
      obtain ⟨later, rfl⟩ := ih fun piece hm => hpieces piece (List.mem_cons_of_mem _ hm)
      refine ⟨text ++ (terminator.text ++ later), ?_⟩
      rw [toBytes_append, toBytes_append, terminator.toBytes_text]

namespace LineSource

theorem linesOf_eq (h : Splits bytes split) : linesOf bytes = split.pieces.map decodeLine :=
  readAll_eq h rfl (ahead_ofBytes bytes)

/-- **A text is read as its lines.** -/
theorem linesOf_toBytes (text : List Char) :
    linesOf (toBytes text) = (Text.lines text).map .ok := by
  obtain ⟨split, hs, hpieces⟩ := exists_splits_toBytes text
  rw [linesOf_eq hs, hpieces, List.map_map]
  refine List.map_congr_left ?_
  intro line _
  exact decodeLine_eq_ok_iff.2 rfl

/-- **All lines of an input can be read exactly if it is a text, and then they are the lines of the
text.** The calls of a source give the same lines, one after another. -/
theorem lines_of_bytes (bytes : List UInt8) :
    (∀ k, ((ofBytes bytes).after k).next.1 = (linesOf bytes)[k]?) ∧
      ((∀ line ∈ linesOf bytes, ∃ text, line = .ok text) ↔
        ∃ text, ofBytes? bytes = some text) ∧
      ∀ text, ofBytes? bytes = some text → linesOf bytes = (Text.lines text).map .ok := by
  obtain ⟨split, hs⟩ := exists_splits bytes
  have hlines : linesOf bytes = split.pieces.map decodeLine := linesOf_eq hs
  have htext (text : List Char) (h : ofBytes? bytes = some text) :
      linesOf bytes = (Text.lines text).map .ok := by
    rw [← ofBytes?_eq_some_iff.1 h]
    exact linesOf_toBytes text
  refine ⟨?_, ⟨?_, ?_⟩, htext⟩
  · intro k
    rw [hlines, List.getElem?_map]
    exact next_after hs rfl (ahead_ofBytes bytes) k
  · intro hok
    have hpieces : ∀ piece ∈ split.pieces, ∃ text, toBytes text = piece := by
      intro piece hm
      have hmem : decodeLine piece ∈ linesOf bytes := hlines ▸ List.mem_map_of_mem hm
      obtain ⟨text, hdecode⟩ := hok _ hmem
      exact ⟨text, decodeLine_eq_ok_iff.1 hdecode⟩
    obtain ⟨text, hbytes⟩ := hs.exists_toBytes_eq hpieces
    exact ⟨text, ofBytes?_eq_some_iff.2 hbytes⟩
  · rintro ⟨text, h⟩ line hm
    rw [htext text h] at hm
    obtain ⟨line, -, rfl⟩ := List.mem_map.1 hm
    exact ⟨line, rfl⟩

/-- A character of two bytes before a terminator, and one of three bytes after it. -/
theorem lines_of_bytes_accented :
    ofBytes? [0xC3, 0xA9, 13, 10, 0xE2, 0x82, 0xAC, 13] = some "\u00e9\r\n\u20ac\r".toList ∧
      linesOf [0xC3, 0xA9, 13, 10, 0xE2, 0x82, 0xAC, 13] =
        ["\u00e9".toList, "\u20ac".toList, []].map .ok := by
  have h : ofBytes? [0xC3, 0xA9, 13, 10, 0xE2, 0x82, 0xAC, 13] =
      some "\u00e9\r\n\u20ac\r".toList := ofBytes?_eq_some_iff.2 (by decide)
  exact ⟨h, (lines_of_bytes _).2.2 _ h⟩

end LineSource
end GCode
