import GCode.Proofs.Lines.Decoding
import GCode.Report

/-!
# The report on two inputs, one after the other

Two inputs with a line feed between them have the lines of the one and then the lines of the other,
as long as the first one does not end in a `\r` that the line feed would join. Every line is read by
itself, so the report on both is that on the first, followed by that on the second with higher line
numbers: nothing in the first input changes what is found in the second.

Only the numbers can run out. A report is read off an unlimited count of the lines (`remarksAfter`),
of which it has those up to the last number.

* `Splits.append`: the split of both inputs.
* `map_entry_findingsAfter`, `isCut_findingsAfter_iff`: which lines a report has, and when it is cut.
* `Report.ofBytes_append`: the report on both inputs.
* `Report.not_forall_ofBytes_append`: without regard to the last number that would be wrong.
-/

namespace GCode

variable {first second : List UInt8} {split split' : Split}

/-! ## Lines -/

/-- A terminator that ends a line still ends it if more bytes follow the input, unless it is a `\r`
at the very end. -/
theorem Terminator.IsLongest.append {terminator : Terminator} {rest : List UInt8}
    (h : terminator.IsLongest rest)
    (hlast : (terminator.bytes ++ rest).getLast? ≠ some LineSource.carriageReturn)
    (more : List UInt8) : terminator.IsLongest (rest ++ more) := by
  cases terminator with
  | lineFeed => exact isLongest_lineFeed _
  | both => exact isLongest_both _
  | carriageReturn =>
      refine isLongest_carriageReturn ?_
      cases rest with
      | nil => exact absurd rfl hlast
      | cons byte rest => exact h.head?_ne

/-- **The split of two inputs with a line feed between them** has the lines of both. The last line
of the first input is the one that the line feed ends. -/
theorem Splits.append (h : Splits first split)
    (hlast : first.getLast? ≠ some LineSource.carriageReturn) (h' : Splits second split') :
    Splits (first ++ LineSource.lineFeed :: second)
      ⟨split.lines ++ ⟨split.last, .lineFeed⟩ :: split'.lines, split'.last⟩ := by
  induction h with
  | last hp => exact .line hp (Terminator.isLongest_lineFeed second) h'
  | @line bytes rest terminator split hp hl _ ih =>
      have hterminated : (terminator.bytes ++ rest).getLast? ≠ some LineSource.carriageReturn := by
        intro he
        refine hlast ?_
        rw [List.getLast?_append, he]
        rfl
      have hrest : rest.getLast? ≠ some LineSource.carriageReturn := by
        intro he
        refine hterminated ?_
        rw [List.getLast?_append, he]
        rfl
      have hlonger := hl.append hterminated (LineSource.lineFeed :: second)
      have hline := Splits.line hp hlonger (ih hrest)
      rw [List.append_assoc, List.append_assoc]
      exact hline

/-- **The lines of two inputs with a line feed between them.** -/
theorem linesOf_append (hlast : first.getLast? ≠ some LineSource.carriageReturn)
    (second : List UInt8) :
    linesOf (first ++ LineSource.lineFeed :: second) = linesOf first ++ linesOf second := by
  obtain ⟨split, hs⟩ := LineSource.exists_splits first
  obtain ⟨split', hs'⟩ := LineSource.exists_splits second
  rw [LineSource.linesOf_eq hs, LineSource.linesOf_eq hs',
    LineSource.linesOf_eq (hs.append hlast hs')]
  simp [Split.pieces]

theorem length_linesOf_replicate (count : Nat) :
    (linesOf (List.replicate count LineSource.lineFeed)).length = count + 1 := by
  have hempty : linesOf [] = [.ok []] := LineSource.linesOf_toBytes []
  induction count with
  | zero => exact congrArg List.length hempty
  | succ count ih =>
      have hsplit : List.replicate (count + 1) LineSource.lineFeed =
          [] ++ LineSource.lineFeed :: List.replicate count LineSource.lineFeed := rfl
      rw [hsplit, linesOf_append (by simp), List.length_append, ih, hempty, List.length_singleton,
        Nat.add_comm]

theorem getLast?_replicate_lineFeed_ne (count : Nat) :
    (List.replicate count LineSource.lineFeed).getLast? ≠ some LineSource.carriageReturn := by
  rw [List.getLast?_replicate]
  split
  · exact Option.some_ne_none _ ∘ Eq.symm
  · decide

/-! ## Numbers -/

theorem nextNumber?_eq_none_iff {number : Int32} :
    nextNumber? number = none ↔ 2147483647 ≤ number.toInt := by
  have hlimit : Int32.maxValue.toInt = 2147483647 := by decide
  rw [nextNumber?, ite_eq_right_iff, Int32.lt_iff_toInt_lt, hlimit]
  simp

theorem toInt_of_nextNumber? {number next : Int32} (h : nextNumber? number = some next) :
    next.toInt = number.toInt + 1 := by
  have hlow := number.le_toInt
  have hnot : ¬2147483647 ≤ number.toInt := fun hle => by
    rw [nextNumber?_eq_none_iff.2 hle] at h
    cases h
  unfold nextNumber? at h
  split at h
  · cases h
    rw [Int32.toInt_add]
    exact Int.bmod_eq_of_le (by simp; omega) (by simp; omega)
  · cases h

/-! ## Findings -/

/-- The remarks on the lines behind a number, each with the number of its line, as if there were a
number for every line. -/
def remarksAfter (number : Int) : List (Except Error (List Char)) → List (Int × Remark)
  | [] => []
  | line :: lines =>
      ((Remark.ofLine? line).map (number + 1, ·)).toList ++ remarksAfter (number + 1) lines

section
variable {number : Int} {lines : List (Except Error (List Char))}

/-- Each remark is on the line that its number counts to. -/
theorem exists_line_of_mem_remarksAfter {entry : Int × Remark}
    (h : entry ∈ remarksAfter number lines) :
    ∃ k < lines.length, entry.1 = number + (k + 1 : Nat) ∧
      lines[k]?.bind Remark.ofLine? = some entry.2 := by
  induction lines generalizing number with
  | nil => cases h
  | cons line lines ih =>
      rw [remarksAfter, List.mem_append, Option.mem_toList, Option.map_eq_some_iff] at h
      rcases h with ⟨remark, hremark, rfl⟩ | h
      · exact ⟨0, Nat.zero_lt_succ _, rfl, hremark⟩
      · obtain ⟨k, hk, hnumber, hline⟩ := ih h
        refine ⟨k + 1, Nat.succ_lt_succ hk, by omega, ?_⟩
        rw [List.getElem?_cons_succ]
        exact hline

/-- Every line has a number of its own, whether there is a remark on it or not. -/
theorem remarksAfter_append (number : Int) (lines later : List (Except Error (List Char))) :
    remarksAfter number (lines ++ later) =
      remarksAfter number lines ++ remarksAfter (number + lines.length) later := by
  induction lines generalizing number with
  | nil => simp [remarksAfter]
  | cons line lines ih =>
      have hnumber : number + 1 + lines.length = number + (lines.length + 1 : Nat) := by omega
      rw [List.cons_append, remarksAfter, remarksAfter, ih, List.append_assoc, List.length_cons,
        hnumber]

theorem remarksAfter_add (number more : Int) (lines : List (Except Error (List Char))) :
    remarksAfter (number + more) lines =
      (remarksAfter number lines).map fun entry => (entry.1 + more, entry.2) := by
  induction lines generalizing number with
  | nil => rfl
  | cons line lines ih =>
      have hnext : number + more + 1 = number + 1 + more := by omega
      rw [remarksAfter, remarksAfter, hnext, ih, List.map_append]
      congr 1
      cases Remark.ofLine? line <;> rfl

end

def Finding.entry (finding : Finding) : Int × Remark := (finding.number.toInt, finding.remark)

/-- **The findings are the remarks on the lines that have a number.** -/
theorem map_entry_findingsAfter (number : Int32) (lines : List (Except Error (List Char))) :
    (findingsAfter number lines).1.map Finding.entry =
      (remarksAfter number.toInt lines).filter fun entry => entry.1 ≤ 2147483647 := by
  induction lines generalizing number with
  | nil => rfl
  | cons line lines ih =>
      rw [findingsAfter]
      cases hn : nextNumber? number with
      | none =>
          -- from here on every number is past the last one
          have hlimit := nextNumber?_eq_none_iff.1 hn
          symm
          rw [List.map_nil, List.filter_eq_nil_iff]
          intro entry hentry
          obtain ⟨k, -, hnumber, -⟩ := exists_line_of_mem_remarksAfter hentry
          rw [decide_eq_true_eq]
          omega
      | some next =>
          have hnext := toInt_of_nextNumber? hn
          have hlt := next.toInt_lt
          have hfits : number.toInt + 1 ≤ 2147483647 := by omega
          simp only [List.map_append, ih, remarksAfter, List.filter_append, hnext]
          congr 1
          cases Remark.ofLine? line with
          | none => rfl
          | some remark => simp [Finding.entry, hnext, hfits]

theorem isCut_findingsAfter_iff (number : Int32) (lines : List (Except Error (List Char))) :
    (findingsAfter number lines).2 = true ↔ 2147483647 < number.toInt + lines.length := by
  have hlt := number.toInt_lt
  induction lines generalizing number with
  | nil =>
      refine iff_of_false Bool.false_ne_true ?_
      rw [List.length_nil]
      omega
  | cons line lines ih =>
      rw [findingsAfter, List.length_cons]
      cases hn : nextNumber? number with
      | none =>
          have hlimit := nextNumber?_eq_none_iff.1 hn
          refine iff_of_true rfl ?_
          omega
      | some next =>
          have hnext := toInt_of_nextNumber? hn
          simp only [ih next next.toInt_lt, hnext]
          omega

namespace Report

def findings (bytes : List UInt8) : List Finding := (findingsAfter 0 (linesOf bytes)).1

theorem isCut_ofBytes_iff (bytes : List UInt8) :
    (ofBytes bytes).isCut = true ↔ 2147483647 < (linesOf bytes).length := by
  rw [ofBytes, isCut_findingsAfter_iff, Int32.toInt_zero]
  omega

/-- The findings whose lines still have a number if there are more lines in front. -/
def keptBehind (more : Nat) (findings : List Finding) : List Finding :=
  findings.filter fun finding => finding.number.toInt + more ≤ 2147483647

theorem map_entry_keptBehind (more : Nat) (bytes : List UInt8) :
    (keptBehind more (findings bytes)).map Finding.entry =
      (remarksAfter 0 (linesOf bytes)).filter
        fun entry : Int × Remark => entry.1 + more ≤ 2147483647 := by
  have hmap := List.filter_map (f := Finding.entry) (l := findings bytes)
    (p := fun entry : Int × Remark => decide (entry.1 + more ≤ 2147483647))
  rw [keptBehind]
  refine hmap.symm.trans ?_
  rw [findings, map_entry_findingsAfter, List.filter_filter]
  refine List.filter_congr fun entry _ => ?_
  rw [← Bool.decide_and, decide_eq_decide]
  omega

theorem exists_line_of_mem_findings {bytes : List UInt8} {finding : Finding}
    (h : finding ∈ findings bytes) :
    ∃ k < (linesOf bytes).length, finding.number.toInt = (k + 1 : Nat) ∧
      (linesOf bytes)[k]?.bind Remark.ofLine? = some finding.remark := by
  have hentry : finding.entry ∈ (findings bytes).map Finding.entry := List.mem_map_of_mem h
  rw [findings, map_entry_findingsAfter] at hentry
  obtain ⟨k, hk, hnumber, hline⟩ := exists_line_of_mem_remarksAfter (List.mem_filter.1 hentry).1
  rw [Int32.toInt_zero, Int.zero_add] at hnumber
  exact ⟨k, hk, hnumber, hline⟩

theorem keptBehind_eq_self {more : Nat} {bytes : List UInt8}
    (h : more + (linesOf bytes).length ≤ 2147483647) :
    keptBehind more (findings bytes) = findings bytes := by
  refine List.filter_eq_self.2 fun finding hfinding => ?_
  obtain ⟨k, hk, hnumber, -⟩ := exists_line_of_mem_findings hfinding
  rw [decide_eq_true_eq]
  omega

theorem flatMap_eq_flatMap_entry (write : Int → Remark → List Char) (found : List Finding) :
    found.flatMap (fun finding => write finding.number.toInt finding.remark) =
      (found.map Finding.entry).flatMap fun entry => write entry.1 entry.2 := by
  rw [List.flatMap_map]
  rfl

theorem flatMap_findings_append (hlast : first.getLast? ≠ some LineSource.carriageReturn)
    (second : List UInt8) (write : Int → Remark → List Char) :
    (findings (first ++ LineSource.lineFeed :: second)).flatMap
        (fun finding => write finding.number.toInt finding.remark) =
      (findings first).flatMap (fun finding => write finding.number.toInt finding.remark) ++
        (keptBehind (linesOf first).length (findings second)).flatMap
          fun finding => write (finding.number.toInt + (linesOf first).length) finding.remark := by
  have hsecond := flatMap_eq_flatMap_entry (fun number => write (number + (linesOf first).length))
    (keptBehind (linesOf first).length (findings second))
  rw [hsecond, map_entry_keptBehind, flatMap_eq_flatMap_entry, flatMap_eq_flatMap_entry, findings,
    findings, map_entry_findingsAfter, map_entry_findingsAfter, linesOf_append hlast,
    remarksAfter_append, List.filter_append, List.flatMap_append, remarksAfter_add, List.filter_map,
    List.flatMap_map, Int32.toInt_zero]
  rfl

/-- Behind as many lines as there are numbers nothing is reported. -/
theorem output_append_of_le (hlast : first.getLast? ≠ some LineSource.carriageReturn)
    (hfull : 2147483647 ≤ (linesOf first).length) (second : List UInt8) :
    (ofBytes (first ++ LineSource.lineFeed :: second)).output = (ofBytes first).output := by
  have hnone : keptBehind (linesOf first).length (findings second) = [] := by
    refine List.filter_eq_nil_iff.2 fun finding hfinding => ?_
    obtain ⟨k, -, hnumber, -⟩ := exists_line_of_mem_findings hfinding
    rw [decide_eq_true_eq]
    omega
  have hreport := flatMap_findings_append hlast second Remark.output
  rw [hnone, List.flatMap_nil, List.append_nil] at hreport
  exact hreport

/-- **The report on two inputs with a line feed between them** is the report on the first one,
followed by the findings on the second one as many lines further down as the first one has. It is
cut if that makes more lines than there are numbers, and says nothing of those without a number;
as long as there are enough, it says all that the two reports say, and none of them is cut. Every
finding has the number of its line, whatever is on the lines before. -/
theorem ofBytes_append (hlast : first.getLast? ≠ some LineSource.carriageReturn)
    (second : List UInt8) :
    let more := (linesOf first).length
    let joined := ofBytes (first ++ LineSource.lineFeed :: second)
    let kept := keptBehind more (findings second)
    (ofBytes second).output =
        (findings second).flatMap (fun finding => finding.remark.output finding.number.toInt) ∧
      (ofBytes second).complaints =
        (findings second).flatMap (fun finding => finding.remark.complaint finding.number.toInt) ∧
      joined.output =
        (ofBytes first).output ++
          kept.flatMap (fun finding => finding.remark.output (finding.number.toInt + more)) ∧
      joined.complaints =
        (ofBytes first).complaints ++
          kept.flatMap (fun finding => finding.remark.complaint (finding.number.toInt + more)) ∧
      (joined.isCut = true ↔ 2147483647 < more + (linesOf second).length) ∧
      (more + (linesOf second).length ≤ 2147483647 →
        kept = findings second ∧ (ofBytes first).isCut = false ∧
          (ofBytes second).isCut = false) ∧
      ∀ finding ∈ findings second, ∃ k < (linesOf second).length,
        finding.number.toInt = (k + 1 : Nat) ∧
          (linesOf second)[k]?.bind Remark.ofLine? = some finding.remark := by
  intro more joined kept
  refine ⟨rfl, rfl, flatMap_findings_append hlast second Remark.output,
    flatMap_findings_append hlast second Remark.complaint, ?_, ?_,
    fun finding hfinding => exists_line_of_mem_findings hfinding⟩
  · rw [isCut_ofBytes_iff, linesOf_append hlast, List.length_append]
  · intro hle
    refine ⟨keptBehind_eq_self hle, ?_, ?_⟩
    · rw [Bool.eq_false_iff, Ne, isCut_ofBytes_iff]
      omega
    · rw [Bool.eq_false_iff, Ne, isCut_ofBytes_iff]
      omega

/-- An unreadable line, and a command with a text that has no closing quote. -/
def torn : List UInt8 := 0xFF :: LineSource.lineFeed :: Text.toBytes "M3 S\"a".toList

theorem ofBytes_append_torn :
    torn.getLast? ≠ some LineSource.carriageReturn ∧
      (linesOf torn).length + (linesOf (Text.toBytes "G1 X2".toList)).length ≤ 2147483647 ∧
      (ofBytes (torn ++ LineSource.lineFeed :: Text.toBytes "G1 X2".toList)).output =
        (ofBytes torn).output ++ "3: G1\n    X = 2000 (Integer)\n".toList ∧
      (ofBytes (torn ++ LineSource.lineFeed :: [0xFF])).complaints =
        (ofBytes torn).complaints ++ "3: line is not valid utf-8\n".toList := by
  have hlast : torn.getLast? ≠ some LineSource.carriageReturn := by decide
  refine ⟨hlast, by decide +kernel, ?_, ?_⟩
  · refine (ofBytes_append hlast (Text.toBytes "G1 X2".toList)).2.2.1.trans ?_
    decide +kernel
  · refine (ofBytes_append hlast [0xFF]).2.2.2.1.trans ?_
    decide +kernel

/-- Behind as many lines as there are numbers a command is not reported any more. -/
theorem not_forall_ofBytes_append :
    ¬∀ first second : List UInt8, first.getLast? ≠ some LineSource.carriageReturn →
      (ofBytes (first ++ LineSource.lineFeed :: second)).output =
        (ofBytes first).output ++ (findings second).flatMap
          fun finding => finding.remark.output (finding.number.toInt + (linesOf first).length) := by
  intro hall
  -- The line feeds are taken for granted here, for there are too many to write them out.
  obtain ⟨first, hlast, hlines⟩ : ∃ first : List UInt8,
      first.getLast? ≠ some LineSource.carriageReturn ∧ (linesOf first).length = 2147483647 :=
    ⟨List.replicate 2147483646 LineSource.lineFeed, getLast?_replicate_lineFeed_ne _,
      length_linesOf_replicate 2147483646⟩
  have hclaimed := hall first (Text.toBytes "G1".toList) hlast
  have hsome : (findings (Text.toBytes "G1".toList)).flatMap
      (fun finding => finding.remark.output (finding.number.toInt + (2147483647 : Nat))) =
        "2147483648: G1\n".toList := by
    decide +kernel
  rw [hlines, hsome, output_append_of_le hlast (by omega), List.self_eq_append_right] at hclaimed
  exact absurd hclaimed (by decide)

end Report
end GCode
