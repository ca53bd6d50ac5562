import WordStream.Json.SampleSet
import WordStream.Report.Comparison
import WordStream.Report.Dump

/-!
# The command line

`dump [number …]` shows numbers in both formats; `compare file` compares the formats on a file of
sample sets.
-/

namespace WordStream.Main

def usage : String := "usage: dump [number ...] | compare FILE"

/-- Print the lines of a report, or say why there is none. -/
def printReport (report : Except String (List String)) : IO UInt32 := do
  match report with
  | .ok lines =>
      for line in lines do IO.println line
      return 0
  | .error message =>
      IO.eprintln message
      return 1

end WordStream.Main

/-- Run the command that the arguments name. -/
def main : List String → IO UInt32
  | "dump" :: arguments =>
      WordStream.Main.printReport ((WordStream.Report.Dump.run arguments).mapError (·.message))
  | ["compare", file] => do
      IO.println s!"Loading samples from: {file}"
      let samples := WordStream.Json.sampleSets? (← IO.FS.readFile file)
      WordStream.Main.printReport
        ((WordStream.Report.Comparison.run samples).mapError (·.message))
  | _ => do
      IO.eprintln WordStream.Main.usage
      return 2
