/-! # Blanks

The blanks of a line are its spaces and tabs; every other character, a line terminator or a
no-break space included, is text. A text is the blanks at its head followed by the rest
(`takeBlanks_append_dropBlanks`), and the rest does not start with a blank
(`head_dropBlanks`).
-/

namespace GCode.Text

/-- A space or a tab. -/
def isBlank (c : Char) : Bool := c = ' ' || c = '\t'

def takeBlanks (text : List Char) : List Char := text.takeWhile isBlank

def dropBlanks (text : List Char) : List Char := text.dropWhile isBlank

theorem takeBlanks_append_dropBlanks (text : List Char) :
    takeBlanks text ++ dropBlanks text = text :=
  List.takeWhile_append_dropWhile

theorem isBlank_of_mem_takeBlanks {text : List Char} {c : Char} (h : c ∈ takeBlanks text) :
    isBlank c = true := by
  induction text with
  | nil => cases h
  | cons d text ih =>
      by_cases hd : isBlank d = true
      · simp only [takeBlanks, List.takeWhile_cons, hd, if_true, List.mem_cons] at h
        rcases h with rfl | h
        · exact hd
        · exact ih h
      · simp [takeBlanks, hd] at h

theorem head_dropBlanks {text rest : List Char} {c : Char} (h : dropBlanks text = c :: rest) :
    isBlank c = false := by
  induction text with
  | nil => cases h
  | cons d text ih =>
      by_cases hd : isBlank d = true
      · simp only [dropBlanks, List.dropWhile_cons, hd, if_true] at h
        exact ih h
      · simp only [dropBlanks, List.dropWhile_cons, hd] at h
        cases h
        simpa using hd

theorem length_dropBlanks_le (text : List Char) : (dropBlanks text).length ≤ text.length := by
  have h := congrArg List.length (takeBlanks_append_dropBlanks text)
  simp only [List.length_append] at h
  omega

end GCode.Text
