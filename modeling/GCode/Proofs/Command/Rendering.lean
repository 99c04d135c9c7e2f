import GCode.Proofs.Command.Grammar

/-!
# Reading a command as it is written

A command is written as its code, one space and its body (`Command.text`). Read again, the number of
the code stops at that space, and the command is the same one. The exception comes from the blanks
that a number may hold: behind a code without a point, a body that starts with a point is read as
the places of the number.

* `Code.written`: the number that a code is written with.
* `Field.codeOf_written`: that number makes the code again.
* `Command.exists_of_read?`: the code of a command comes from a letter that stays as it is.
* `Command.read?_text_append`: what is read again hangs on where the number ends.
* `Command.read?_text`: the command itself is read again, except behind a point, where less is left.
-/

namespace GCode

open Text Numeral

/-! ## The number of a code -/

namespace Code

/-- The number that a code is written with. The subcode zero has no point. -/
def written (number : UInt16) (subcode : UInt8) : Number where
  gap := []
  sign := none
  signGap := []
  whole := render number.toNat
  integral := number.toUInt64
  point := if subcode = 0 then none else some ⟨[], [], render subcode.toNat⟩

variable {word : Char} {number : UInt16} {subcode : UInt8}

theorem written_zero :
    written number 0 = ⟨[], none, [], render number.toNat, number.toUInt64, none⟩ :=
  rfl

theorem written_of_ne_zero (h : subcode ≠ 0) :
    written number subcode =
      ⟨[], none, [], render number.toNat, number.toUInt64,
        some ⟨[], [], render subcode.toNat⟩⟩ := by
  rw [written, if_neg h]

theorem wellFormed_written (number : UInt16) (subcode : UInt8) :
    (written number subcode).WellFormed := by
  have hn : number.toNat < 65536 := number.toNat_lt
  have hl := toNat_limit
  have hv := value_render number.toNat
  have hp : ∀ p ∈ (written number subcode).point, p.WellFormed ∧ p.before = [] := by
    intro p hp
    by_cases h : subcode = 0
    · rw [h, written_zero] at hp
      cases hp
    · rw [written_of_ne_zero h] at hp
      cases hp
      exact ⟨⟨isRun_nil, isRun_nil, isRun_render _, fun _ => rfl⟩, rfl⟩
  exact {
    gap := isRun_nil
    signGap := isRun_nil
    signGap_eq_nil := fun _ => rfl
    whole := isRun_render _
    toNat_integral := by
      show number.toUInt64.toNat = value (render number.toNat)
      rw [hv, UInt16.toNat_toUInt64]
    value_le := by
      show value (render number.toNat) ≤ limit.toNat
      omega
    point := fun p h => (hp p h).1
    before_eq_nil := fun _ p h => (hp p h).2
    whole_ne_nil := fun _ => render_ne_nil _ }

theorem text_pack_eq_written (hw : word.toNat < 128 ∧ word.toNat ≠ 0) :
    (pack word number subcode).text = word :: (written number subcode).text := by
  rw [text_pack hw]
  by_cases h : subcode = 0
  · rw [h, written_zero]
    simp [Number.text, Number.argument]
  · rw [written_of_ne_zero h, if_neg h]
    simp [Number.text, Number.argument, Point.text]

/-- What may follow a written number: no digit, and without a point no point either. -/
theorem ends_written {tail : List Char} (hd : Stops Char.isDigit tail)
    (hp : subcode = 0 → Stops (· = '.') (dropBlanks tail)) :
    (written number subcode).Ends tail := by
  by_cases h : subcode = 0
  · rw [h, written_zero]
    exact ⟨hd, hp h⟩
  · rw [written_of_ne_zero h]
    show Stops Char.isDigit (if render subcode.toNat = [] then dropBlanks tail else tail)
    rw [if_neg (render_ne_nil _)]
    exact hd

end Code

namespace Field

variable {word : Char}

theorem toInt_written (number : UInt16) : (Code.written number 0).toInt.toInt = number.toNat := by
  rw [Number.toInt_toInt (Code.wellFormed_written number 0), Code.written_zero, value_render]
  exact Int.one_mul _

/-- **The number that a code is written with makes that code.** -/
theorem codeOf_written (word : Char) (number : UInt16) (subcode : UInt8) :
    codeOf word (Code.written number subcode) = Code.pack word number subcode := by
  have hn : number.toNat < 65536 := number.toNat_lt
  by_cases h : subcode = 0
  · have hi := toInt_written number
    have hrange : 0 ≤ (Code.written number 0).toInt ∧ (Code.written number 0).toInt < 65536 := by
      rw [Int32.le_iff_toInt_le, Int32.lt_iff_toInt_lt, hi]
      exact ⟨Int.natCast_nonneg _, Int.ofNat_lt.2 hn⟩
    have hword : (Code.written number 0).toInt.toInt.toNat.toUInt16 = number := by
      rw [hi, Int.toNat_natCast]
      exact UInt16.ofNat_toNat
    rw [h]
    show (if _ then Code.pack word (Code.written number 0).toInt.toInt.toNat.toUInt16 0 else _) = _
    rw [if_pos hrange, hword]
  · have hs : subcode.toNat < 256 := subcode.toNat_lt
    have hl := toNat_limit
    have hb : bounded? (render subcode.toNat) = some subcode.toUInt64 := by
      rw [bounded?_eq_some_iff (isRun_render _), value_render, UInt8.toNat_toUInt64]
      omega
    have hwhole : number.toUInt64 < 65536 := by
      rw [UInt64.lt_iff_toNat_lt, UInt16.toNat_toUInt64]
      exact hn
    have hpoint : subcode.toUInt64 < 256 := by
      rw [UInt64.lt_iff_toNat_lt, UInt8.toNat_toUInt64]
      exact hs
    rw [Code.written_of_ne_zero h]
    simp only [codeOf, hb]
    rw [if_pos ⟨trivial, render_ne_nil _, render_ne_nil _, hwhole, hpoint⟩,
      UInt16.toUInt16_toUInt64, UInt8.toUInt8_toUInt64]

theorem codeOf_eq (word : Char) (n : Number) :
    codeOf word n = Code.invalid ∨
      ∃ number subcode, codeOf word n = Code.pack word number subcode := by
  unfold codeOf
  split
  · split
    · exact .inr ⟨_, _, rfl⟩
    · exact .inl rfl
  · split
    · split
      · exact .inr ⟨_, _, rfl⟩
      · exact .inl rfl
    · exact .inl rfl

end Field

theorem Comment.skip_cons {c : Char} (h : c.isAlpha = true) (text : List Char) :
    skip (c :: text) = c :: text := by
  have hw : Field.isWord c = true := by simp [Field.isWord, h]
  exact skip_of_stops (stops_cons.2 (isOpening_eq_false_of_isWord c hw))

namespace Command

variable {settings : Settings} {line : List Char} {command : Command}

/-! ## Writing and reading a command -/

theorem exists_of_read? (h : read? settings line = some command) :
    ∃ word number subcode, word.isAlpha = true ∧ settings.letterCase.apply word = word ∧
      command.code = Code.pack word number subcode ∧ Stops isBlank command.body ∧
      command.settings = settings := by
  unfold read? at h
  dsimp only at h
  split at h
  · cases h
  next field tail hf =>
    split at h
    next hv =>
      cases h
      obtain ⟨-, -, -, hword, -⟩ := Field.exists_of_read? hf
      obtain ⟨halpha, n, -, -, hcode⟩ := Field.exists_number_of_isValid_code hv
      have hcase : settings.letterCase.apply field.word = field.word := by
        rw [hword, LetterCase.apply_apply]
      rcases Field.codeOf_eq field.word n with hi | ⟨number, subcode, hp⟩
      · rw [hcode, hi] at hv
        exact absurd hv (by decide)
      · exact ⟨field.word, number, subcode, halpha, hcase, hcode.trans hp,
          stops_dropBlanks tail, rfl⟩
    · cases h

/-- What is read from a written code and a text behind it hangs on the number alone. -/
theorem read?_text_append {word : Char} (ha : word.isAlpha = true)
    (hc : settings.letterCase.apply word = word) {number : UInt16} {subcode : UInt8}
    {tail rest : List Char} {n : Number}
    (hn : Number.read? ((Code.written number subcode).text ++ tail) = some (n, rest)) :
    read? settings ((Code.pack word number subcode).text ++ tail) =
      if (Field.codeOf word n).isValid then
        some ⟨Field.codeOf word n, dropBlanks rest, settings⟩ else none := by
  have hl : Field.isWord word = true := by simp [Field.isWord, ha]
  have hs (text : List Char) : dropBlanks (word :: text) = word :: text :=
    dropBlanks_eq_self (stops_cons.2 (Field.isBlank_eq_false_of_isWord hl))
  have hf : Field.read? settings (word :: ((Code.written number subcode).text ++ tail)) =
      some (⟨word, settings.letterCase.apply word, .number n (n.scaled? settings)⟩, rest) :=
    Field.read?_cons_of_number hl hn
  rw [read?, Code.text_pack_eq_written (toNat_of_isAlpha ha), List.cons_append, hs,
    Comment.skip_cons ha, hs, hf, hc]
  simp only [Field.code, ha, if_true]

def bodyText (command : Command) : List Char :=
  if command.body = [] then [] else ' ' :: command.body

theorem text_eq (command : Command) : command.text = command.code.text ++ command.bodyText := rfl

theorem dropBlanks_bodyText (h : Stops isBlank command.body) :
    dropBlanks command.bodyText = command.body := by
  rw [bodyText]
  split
  next hb => rw [hb]; rfl
  next => exact dropBlanks_append (isRun_cons.2 ⟨by decide, isRun_nil⟩) h

theorem stops_bodyText (command : Command) : Stops Char.isDigit command.bodyText := by
  rw [bodyText]
  split
  · exact stops_nil
  · exact stops_cons.2 (by decide)

/-- **A point behind a code without one is read as its places**: the number takes at least the space
and the point. -/
theorem read?_written_zero (number : UInt16) (places : List Char) :
    ∃ n rest, Number.read? ((Code.written number 0).text ++ ' ' :: '.' :: places) = some (n, rest) ∧
      rest.length ≤ places.length := by
  have hw := Code.wellFormed_written number 0
  have hne : ¬((Code.written number 0).whole = []) := render_ne_nil _
  have hread := (hw.read?_append (fun _ => stops_cons.2 (by decide) :
    (Code.written number 0).point = none → Stops Char.isDigit (' ' :: '.' :: places))).1
  cases hp : Point.read? (' ' :: '.' :: places) with
  | none =>
      have hs := Point.read?_eq_none_iff.1 hp
      exact absurd (stops_cons.1 hs) (by decide)
  | some r =>
      obtain ⟨point, rest⟩ := r
      refine ⟨_, rest, hread point rest hp fun h => hne h.1, ?_⟩
      have ht := congrArg List.length (Point.text_append hp)
      have hbefore : point.before ≠ [] := by
        intro hb
        have ht := Point.text_append hp
        simp [Point.text, hb] at ht
      have hpos := List.length_pos_iff.2 hbefore
      simp only [Point.text, List.length_append, List.length_cons] at ht
      omega

/-- **A command is read again from the way it is written**, unless its subcode is zero and its body
starts with a point. Then the body that is read again is shorter, if there is a command at all. -/
theorem read?_text (h : read? settings line = some command) :
    (¬(command.code.subcode = 0 ∧ command.body.head? = some '.') →
      read? settings command.text = some command) ∧
    (command.code.subcode = 0 ∧ command.body.head? = some '.' →
      ∀ again, read? settings command.text = some again →
        again.body.length < command.body.length) := by
  obtain ⟨word, number, subcode, ha, hc, hcode, hbody, hsettings⟩ := exists_of_read? h
  have hw := toNat_of_isAlpha ha
  rw [text_eq, hcode, Code.subcode_pack hw]
  constructor
  · intro hne
    have hpoint : subcode = 0 → Stops (· = '.') (dropBlanks command.bodyText) := by
      intro hs
      rw [dropBlanks_bodyText hbody]
      intro c hc
      refine decide_eq_false ?_
      rintro rfl
      exact hne ⟨hs, hc⟩
    have hnumber := Number.read?_text_append (Code.wellFormed_written number subcode)
      (Code.ends_written command.stops_bodyText hpoint)
    rw [read?_text_append ha hc hnumber, Field.codeOf_written, if_pos (Code.isValid_pack_iff.2 hw),
      dropBlanks_bodyText hbody, ← hcode, ← hsettings]
  · rintro ⟨rfl, hhead⟩ again hagain
    obtain ⟨places, hplaces⟩ := List.head?_eq_some_iff.1 hhead
    -- the number takes in the point of the body, so less is left behind it
    obtain ⟨n, rest, hnumber, hlength⟩ := read?_written_zero number places
    have htext : command.bodyText = ' ' :: '.' :: places := by
      rw [bodyText, hplaces, if_neg (List.cons_ne_nil _ _)]
    rw [htext, read?_text_append ha hc hnumber] at hagain
    split at hagain
    · cases hagain
      have hdrop := length_dropBlanks_le rest
      rw [hplaces, List.length_cons]
      show (dropBlanks rest).length < places.length + 1
      omega
    · cases hagain

theorem read?_text_spaced :
    read? {} "\t(move) g92.00   x-1 .5".toList = some ⟨Code.pack 'G' 92 0, "x-1 .5".toList, {}⟩ ∧
      (Command.mk (Code.pack 'G' 92 0) "x-1 .5".toList {}).text = "G92 x-1 .5".toList ∧
      read? {} (Command.mk (Code.pack 'G' 92 0) "x-1 .5".toList {}).text =
        some ⟨Code.pack 'G' 92 0, "x-1 .5".toList, {}⟩ :=
  have h : read? {} "\t(move) g92.00   x-1 .5".toList =
      some ⟨Code.pack 'G' 92 0, "x-1 .5".toList, {}⟩ := by decide
  ⟨h, by decide, (read?_text h).1 (by decide)⟩

/-- The code `G1` is written without its subcode, and the point of the body then becomes its own. -/
theorem not_forall_read?_text :
    ¬∀ (settings : Settings) (line : List Char) (command : Command),
      read? settings line = some command →
        ∃ again, read? settings command.text = some again ∧ again.code = command.code ∧
          again.body = command.body := by
  intro h
  obtain ⟨again, hread, hcode, -⟩ :=
    h {} "G1.0 .5".toList ⟨Code.pack 'G' 1 0, ".5".toList, {}⟩ (by decide)
  have hone : read? {} "G1 .5".toList = some ⟨Code.pack 'G' 1 5, [], {}⟩ := by decide
  have htext : (Command.mk (Code.pack 'G' 1 0) ".5".toList {}).text = "G1 .5".toList := by decide
  rw [htext, hone] at hread
  cases hread
  exact absurd hcode (by decide)

end Command
end GCode
