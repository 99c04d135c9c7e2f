import GCode.Report

/-! # The command line

Reads the standard input to its end and writes the report on it.
-/

/-- Writes the report on the standard input, complaints to the standard error stream. If the report
is cut, the program fails behind it. -/
def main : IO Unit := do
  let bytes ← (← IO.getStdin).readBinToEnd
  let report := GCode.Report.ofBytes bytes.toList
  (← IO.getStdout).putStr (String.ofList report.output)
  (← IO.getStderr).putStr (String.ofList report.complaints)
  if report.isCut then
    throw (IO.userError "attempt to add with overflow")
