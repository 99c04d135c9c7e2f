import GCode.Proofs.Text.Bytes
import GCode.Proofs.Text.Runs

/-!
# Positions in the bytes of a line

The readings can be carried out on the bytes of a line, with positions that are moved past blanks
and digits and at which the line is cut, and with values in words of the machine. Both can go wrong:
a position can be past the end or inside a character, and a value can be more than its word holds.
Here every cut and every operation checks that, and a reading that goes wrong ends in a `Fault`.

A position does no harm as long as it stands between two characters (`Stands`). It is moved past
ASCII characters only, so it stands between two characters again.

* `Stands.splitAt_eq`: a line can be cut there, into two texts.
* `Stands.look_eq_some_iff`: an ASCII character is seen there exactly if it comes next.
* `Stands.skip`: past a run of ASCII characters there is again such a position.
-/

namespace GCode.Guarded

open Text

/-- What can go wrong in a reading of bytes. -/
inductive Fault
  /-- A position past the end of the bytes, or a place past the last one. -/
  | outOfRange
  /-- A position inside the form of a character. -/
  | insideCharacter
  /-- Bytes that are read as characters and are no text. -/
  | notText
  /-- A value that its word cannot hold. -/
  | overflow
  deriving DecidableEq, Repr

@[simp] theorem pure_eq_ok {α : Type} (a : α) : (pure a : Except Fault α) = .ok a := rfl

@[simp] theorem ok_bind {α β : Type} (a : α) (f : α → Except Fault β) :
    (Except.ok a >>= f) = f a :=
  rfl

/-- The word that holds a value, given the least and the largest value of such a word. -/
def fit {α : Type} (least largest : Int) (ofInt : Int → α) (value : Int) : Except Fault α :=
  if least ≤ value ∧ value ≤ largest then .ok (ofInt value) else .error .overflow

def uint8 : Int → Except Fault UInt8 := fit 0 255 UInt8.ofInt

def uint64 (value : Nat) : Except Fault UInt64 := fit 0 18446744073709551615 UInt64.ofInt value

def int32 : Int → Except Fault Int32 := fit (-2147483648) 2147483647 Int32.ofInt

def int64 : Int → Except Fault Int64 := fit (-9223372036854775808) 9223372036854775807 Int64.ofInt

theorem fit_of_le {α : Type} {least largest value : Int} {ofInt : Int → α} {word : α}
    (hleast : least ≤ value) (hlargest : value ≤ largest) (hword : ofInt value = word) :
    fit least largest ofInt value = .ok word := by
  rw [fit, if_pos ⟨hleast, hlargest⟩, hword]

/-- **A value that a word has fits it.** -/
theorem uint8_toNat (word : UInt8) : uint8 word.toNat = .ok word := by
  have hlt := word.toNat_lt
  have hmod : ((word.toNat : Int) % 2 ^ 8).toNat = word.toNat := by omega
  refine fit_of_le (by omega) (by omega) ?_
  rw [UInt8.ofInt, hmod, UInt8.ofNat_toNat]

theorem uint64_toNat (word : UInt64) : uint64 word.toNat = .ok word := by
  have hlt := word.toNat_lt
  have hmod : ((word.toNat : Int) % 2 ^ 64).toNat = word.toNat := by omega
  refine fit_of_le (by omega) (by omega) ?_
  rw [UInt64.ofInt, hmod, UInt64.ofNat_toNat]

theorem exists_uint64_eq {n : Nat} (h : n ≤ 18446744073709551615) :
    ∃ word, uint64 n = .ok word ∧ word.toNat = n := by
  have hword : (UInt64.ofNat n).toNat = n := UInt64.toNat_ofNat_of_lt' (Nat.lt_succ_of_le h)
  refine ⟨UInt64.ofNat n, ?_, hword⟩
  rw [← uint64_toNat, hword]

theorem uint64_eq_error {n : Nat} (h : 18446744073709551615 < n) : uint64 n = .error .overflow :=
  if_neg (by omega)

theorem int32_toInt (word : Int32) : int32 word.toInt = .ok word := by
  have hle := word.le_toInt
  have hlt := word.toInt_lt
  exact fit_of_le (by omega) (by omega) (Int32.ofInt_toInt word)

example : int32 2147483648 = .error .overflow := rfl

/-- Whether a position is at the end of bytes or before one that a character starts with. -/
def isBoundary (bytes : List UInt8) (position : Nat) : Bool :=
  (bytes.drop position).head?.all fun byte => !isContinuation byte

def splitAt (bytes : List UInt8) (position : Nat) : Except Fault (List UInt8 × List UInt8) :=
  if bytes.length < position then .error .outOfRange
  else if isBoundary bytes position then .ok (bytes.take position, bytes.drop position)
  else .error .insideCharacter

def sliceFrom (bytes : List UInt8) (low : Nat) : Except Fault (List UInt8) :=
  (splitAt bytes low).map Prod.snd

def sliceTo (bytes : List UInt8) (high : Nat) : Except Fault (List UInt8) :=
  (splitAt bytes high).map Prod.fst

def slice (bytes : List UInt8) (low high : Nat) : Except Fault (List UInt8) :=
  if high < low then .error .outOfRange
  else do
    let front ← sliceTo bytes high
    sliceFrom front low

def previous (position : Nat) : Except Fault Nat :=
  if position = 0 then .error .overflow else .ok (position - 1)

def chars (bytes : List UInt8) : Except Fault (List Char) :=
  match ofBytes? bytes with
  | some text => .ok text
  | none => .error .notText

/-- The character with the code of the byte at a position, if a byte is there. -/
def look (bytes : List UInt8) (index : Nat) : Option Char := bytes[index]?.map Char.ofUInt8

def hasCode (p : Char → Bool) (byte : UInt8) : Bool := p (Char.ofUInt8 byte)

def skip (p : Char → Bool) (bytes : List UInt8) (index : Nat) : Nat :=
  index + ((bytes.drop index).takeWhile (hasCode p)).length

def skipBlanks : List UInt8 → Nat → Nat := skip isBlank

/-! ## Bytes as characters -/

def IsAscii (p : Char → Bool) : Prop := ∀ c, p c = true → c.toNat < 128

theorem isAscii_isBlank : IsAscii isBlank := by
  intro c h
  simp only [isBlank, Bool.or_eq_true, decide_eq_true_eq] at h
  rcases h with rfl | rfl <;> decide

theorem isAscii_isDigit : IsAscii Char.isDigit := by
  intro c h
  simp only [Char.isDigit, Bool.and_eq_true, decide_eq_true_eq] at h
  have hle : c.val.toNat ≤ 57 := UInt32.le_iff_toNat_le.1 h.2
  show c.val.toNat < 128
  omega

theorem toNat_ofUInt8 (byte : UInt8) : (Char.ofUInt8 byte).toNat = byte.toNat := rfl

theorem toBytes_cons_of_lt {c : Char} (hc : c.toNat < 128) (text : List Char) :
    toBytes (c :: text) = UInt8.ofNat c.toNat :: toBytes text := by
  rw [toBytes_cons, utf8EncodeChar_of_lt hc]
  rfl

theorem ofUInt8_ofNat {c : Char} (hc : c.toNat < 128) : Char.ofUInt8 (UInt8.ofNat c.toNat) = c := by
  refine Char.toNat_inj.1 ?_
  rw [toNat_ofUInt8, UInt8.toNat_ofNat']
  omega

/-- **The first byte of a text**: the code of its first character, or a byte past all ASCII codes.
It goes on with no character. -/
theorem exists_toBytes_cons_eq (c : Char) (text : List Char) :
    ∃ byte bytes, toBytes (c :: text) = byte :: bytes ∧ isContinuation byte = false ∧
      (Char.ofUInt8 byte = c ∨ 128 ≤ c.toNat ∧ 128 ≤ byte.toNat) := by
  rcases Nat.lt_or_ge c.toNat 128 with hlow | hhigh
  · refine ⟨_, _, toBytes_cons_of_lt hlow text, ?_, .inl (ofUInt8_ofNat hlow)⟩
    rw [isContinuation, UInt8.toNat_ofNat', Bool.and_eq_false_iff, decide_eq_false_iff_not]
    exact .inl (by omega)
  · obtain ⟨byte, bytes, he, hbyte, -⟩ := exists_utf8EncodeChar_eq hhigh
    refine ⟨byte, bytes ++ toBytes text, ?_, ?_, .inr ⟨hhigh, by omega⟩⟩
    · rw [toBytes_cons, he, List.cons_append]
    · rw [isContinuation, Bool.and_eq_false_iff, decide_eq_false_iff_not,
        decide_eq_false_iff_not]
      exact .inr (by omega)

/-- In a class of ASCII characters the first byte tells what the first character is. -/
theorem hasCode_eq {p : Char → Bool} (hp : IsAscii p) {c : Char} {byte : UInt8}
    (h : Char.ofUInt8 byte = c ∨ 128 ≤ c.toNat ∧ 128 ≤ byte.toNat) : hasCode p byte = p c := by
  rcases h with rfl | ⟨hc, hbyte⟩
  · rfl
  · have hnot {d : Char} (hd : 128 ≤ d.toNat) : p d = false := by
      cases hpd : p d with
      | false => rfl
      | true => exact absurd (hp d hpd) (by omega)
    rw [hasCode, hnot hc, hnot (by rwa [toNat_ofUInt8])]

theorem takeWhile_toBytes {p : Char → Bool} (hp : IsAscii p) (text : List Char) :
    (toBytes text).takeWhile (hasCode p) = toBytes (text.takeWhile p) := by
  induction text with
  | nil => rfl
  | cons c text ih =>
      by_cases hc : p c = true
      · have hbyte : hasCode p (UInt8.ofNat c.toNat) = true := by
          rwa [hasCode, ofUInt8_ofNat (hp c hc)]
        rw [toBytes_cons_of_lt (hp c hc), List.takeWhile_cons_of_pos hbyte, ih,
          List.takeWhile_cons_of_pos hc, toBytes_cons_of_lt (hp c hc)]
      · obtain ⟨byte, bytes, he, -, hfirst⟩ := exists_toBytes_cons_eq c text
        have hbyte : ¬hasCode p byte = true := by rwa [hasCode_eq hp hfirst]
        rw [he, List.takeWhile_cons_of_neg hbyte, List.takeWhile_cons_of_neg hc]
        rfl

theorem map_ofUInt8_toBytes (text : List Char) (h : ∀ c ∈ text, c.toNat < 128) :
    (toBytes text).map Char.ofUInt8 = text := by
  induction text with
  | nil => rfl
  | cons c text ih =>
      obtain ⟨hc, htext⟩ := List.forall_mem_cons.1 h
      rw [toBytes_cons_of_lt hc, List.map_cons, ofUInt8_ofNat hc, ih htext]

theorem length_toBytes (text : List Char) (h : ∀ c ∈ text, c.toNat < 128) :
    (toBytes text).length = text.length := by
  have hlength := congrArg List.length (map_ofUInt8_toBytes text h)
  rwa [List.length_map] at hlength

/-! ## Positions between characters -/

/-- A position of a line that stands between two of its characters: what is before it and what is
from it on are both texts. -/
structure Stands (line : List UInt8) (index : Nat) (before rest : List Char) : Prop where
  line_eq : toBytes before ++ toBytes rest = line
  index_eq : (toBytes before).length = index

namespace Stands

variable {line : List UInt8} {index : Nat} {before rest run : List Char} {c : Char}

theorem start (text : List Char) : Stands (toBytes text) 0 [] text := ⟨rfl, rfl⟩

theorem eq_toBytes (h : Stands line index before rest) : line = toBytes (before ++ rest) := by
  rw [toBytes_append, h.line_eq]

theorem drop_eq (h : Stands line index before rest) : line.drop index = toBytes rest := by
  rw [← h.line_eq, ← h.index_eq, List.drop_left]

/-- **A line can be cut between two characters.** Both parts are texts. -/
theorem splitAt_eq (h : Stands line index before rest) :
    splitAt line index = .ok (toBytes before, toBytes rest) := by
  have hlength : ¬line.length < index := by
    rw [← h.line_eq, ← h.index_eq, List.length_append]
    omega
  have hboundary : isBoundary line index = true := by
    rw [isBoundary, h.drop_eq]
    cases rest with
    | nil => rfl
    | cons c rest =>
        obtain ⟨byte, bytes, he, hbyte, -⟩ := exists_toBytes_cons_eq c rest
        rw [he, List.head?_cons, Option.all_some, hbyte]
        rfl
  have htake : line.take index = toBytes before := by
    rw [← h.line_eq, ← h.index_eq, List.take_left]
  rw [splitAt, if_neg hlength, if_pos hboundary, htake, h.drop_eq]

example : splitAt (toBytes ['\u00e9', 'X']) 1 = .error .insideCharacter := rfl

theorem sliceFrom_eq (h : Stands line index before rest) :
    sliceFrom line index = .ok (toBytes rest) := by
  rw [sliceFrom, h.splitAt_eq]
  rfl

theorem sliceTo_eq (h : Stands line index before rest) :
    sliceTo line index = .ok (toBytes before) := by
  rw [sliceTo, h.splitAt_eq]
  rfl

/-- What is seen at a position is what comes next, as far as ASCII characters are concerned. -/
theorem any_look (h : Stands line index before rest) {p : Char → Bool} (hp : IsAscii p) :
    (look line index).any p = rest.head?.any p := by
  rw [look, ← List.head?_drop, h.drop_eq]
  cases rest with
  | nil => rfl
  | cons c rest =>
      obtain ⟨byte, bytes, he, -, hfirst⟩ := exists_toBytes_cons_eq c rest
      rw [he]
      exact hasCode_eq hp hfirst

/-- **An ASCII character is seen exactly if it comes next.** -/
theorem look_eq_some_iff (h : Stands line index before rest) (hc : c.toNat < 128) :
    look line index = some c ↔ rest.head? = some c := by
  have hp : IsAscii (decide <| · = c) := by
    intro d hd
    rwa [of_decide_eq_true hd]
  have hany := h.any_look hp
  have hiff (seen : Option Char) : seen = some c ↔ seen.any (decide <| · = c) = true := by
    cases seen <;> simp
  rw [hiff, hiff, hany]

/-- A position is moved past a text that comes next. -/
theorem move (h : Stands line index before (run ++ rest)) :
    Stands line (index + (toBytes run).length) (before ++ run) rest where
  line_eq := by
    rw [← h.line_eq, toBytes_append, toBytes_append, List.append_assoc]
  index_eq := by
    rw [toBytes_append, List.length_append, h.index_eq]

theorem next (h : Stands line index before (c :: rest)) :
    Stands line (index + c.utf8Size) (before ++ [c]) rest := by
  have hsize : (toBytes [c]).length = c.utf8Size := by
    rw [toBytes_cons, List.length_append, String.length_utf8EncodeChar]
    rfl
  have hsplit : Stands line index before ([c] ++ rest) := h
  have hmove := hsplit.move
  rwa [hsize] at hmove

theorem step (h : Stands line index before (c :: rest)) (hc : c.toNat < 128) :
    Stands line (index + 1) (before ++ [c]) rest := by
  have hsize : c.utf8Size = 1 := by
    rw [← String.length_utf8EncodeChar, utf8EncodeChar_of_lt hc]
    rfl
  have hnext := h.next
  rwa [hsize] at hnext

theorem beforeLast (before : List Char) (c : Char) :
    Stands (toBytes (before ++ [c])) (toBytes before).length before [c] :=
  ⟨(toBytes_append before [c]).symm, rfl⟩

theorem previous_length (before : List Char) (hc : c.toNat < 128) :
    previous (toBytes (before ++ [c])).length = .ok (toBytes before).length := by
  have hlength : (toBytes (before ++ [c])).length = (toBytes before).length + 1 := by
    rw [toBytes_append, List.length_append, toBytes_cons_of_lt hc]
    rfl
  rw [previous, hlength, if_neg (Nat.succ_ne_zero _), Nat.add_sub_cancel]

theorem last (h : Stands line index before rest) : Stands line line.length (before ++ rest) [] where
  line_eq := by
    rw [toBytes_append, h.line_eq]
    exact List.append_nil line
  index_eq := by
    rw [← h.eq_toBytes]

theorem skip_eq {p : Char → Bool} (h : Stands line index before rest) (hp : IsAscii p) :
    Guarded.skip p line index = index + (rest.takeWhile p).length := by
  have hlength := length_toBytes (rest.takeWhile p) fun c hc => hp c (IsRun.takeWhile rest c hc)
  rw [Guarded.skip, h.drop_eq, takeWhile_toBytes hp, hlength]

/-- **Past a run of ASCII characters.** -/
theorem skip {p : Char → Bool} (h : Stands line index before rest) (hp : IsAscii p) :
    Stands line (Guarded.skip p line index) (before ++ rest.takeWhile p) (rest.dropWhile p) := by
  rw [← List.takeWhile_append_dropWhile (p := p) (l := rest)] at h
  have hmove := h.move
  rw [List.takeWhile_append_dropWhile] at h
  rwa [← takeWhile_toBytes hp, ← h.drop_eq] at hmove

end Stands

theorem head?_toBytes_eq_some_iff {c : Char} {line : List Char} (hc : c.toNat < 128) :
    (toBytes line).head? = some (UInt8.ofNat c.toNat) ↔ line.head? = some c := by
  rw [← (Stands.start line).look_eq_some_iff hc, look, ← List.head?_eq_getElem?]
  constructor
  · intro h
    rw [h, Option.map_some, ofUInt8_ofNat hc]
  · intro h
    obtain ⟨byte, hbyte, rfl⟩ := Option.map_eq_some_iff.1 h
    rw [hbyte, toNat_ofUInt8, UInt8.ofNat_toNat]

end GCode.Guarded
