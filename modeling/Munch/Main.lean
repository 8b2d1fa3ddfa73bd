import Munch.Samples.Graph
import Munch.Samples.Selection

/-!
# Command line

Runs a sample by its name.
-/

/-- The report of the sample that the arguments name. -/
def Munch.Samples.ofArguments : List String → Munch.Samples.Report
  | ["graph"] => Munch.Samples.Graph.report
  | ["selection"] => Munch.Samples.Selection.report
  | _ => ⟨"", "usage: munch graph|selection\n", 2⟩

/-- Writes the report and ends with its code. -/
def main (args : List String) : IO UInt32 := do
  let report := Munch.Samples.ofArguments args
  (← IO.getStdout).putStr report.stdout
  (← IO.getStderr).putStr report.stderr
  return UInt32.ofNat report.code
