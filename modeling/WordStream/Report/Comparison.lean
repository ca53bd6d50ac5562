import WordStream.Report.Encoding
import WordStream.Report.SampleSet
import WordStream.Text.Ratio

/-!
# The comparison of the formats on sample sets

Every set is measured as double words, and as signed words if all of its numbers fit; each measured
encoding is read back first.
-/

namespace WordStream.Report.Comparison

/-- Whether a number is a signed word. -/
def fitsSigned (number : Int64) : Bool :=
  decide (Int32.minValue.toInt ≤ number.toInt ∧ number.toInt ≤ Int32.maxValue.toInt)

def padRight (width : Nat) (text : String) : String :=
  String.ofList (text.toList.rightpad width ' ')

def padLeft (width : Nat) (text : String) : String :=
  String.ofList (text.toList.leftpad width ' ')

/-- The head of a set: its name, how many numbers it has, and how many of them are zero.  A name may
hold line breaks. -/
def headLines (set : SampleSet) : List String :=
  let count := set.values.length
  let zeros := set.values.countP (· == 0)
  let share := (Text.Ratio.mk (100 * zeros) (max count 1)).fixed 1
  "" :: s!"{set.name}: {count} values, {share}% zero".splitOn "\n"

/-- The size of an encoding of `count` numbers. -/
def sizeLine (label : String) (count : Nat) (bytes : Array UInt8) : String :=
  let perValue := (Text.Ratio.mk bytes.size (max count 1)).fixed 2
  s!"  {padRight 16 label} {padLeft 10 (toString bytes.size)} bytes  {padLeft 5 perValue} bytes/value"

/-- The encodings of a set as signed words. -/
def signedLines (set : SampleSet) : Except CheckFailure (List String) := do
  if set.values.all fitsSigned then
    let standard ← checkedBytes .standard .signed set.values
    let sparse ← checkedBytes .sparse .signed set.values
    return [ sizeLine "standard (int)" set.values.length standard,
      sizeLine "sparse (int)" set.values.length sparse ]
  else return ["  signed int: skipped, values exceed 32 bits"]

/-- The encodings of a set as double words, and the ratio of their sizes. -/
def longLines (set : SampleSet) : Except CheckFailure (List String) := do
  let standard ← checkedBytes .standard .long set.values
  let sparse ← checkedBytes .sparse .long set.values
  let ratio := (Text.Ratio.mk sparse.size (max standard.size 1)).fixed 3
  return [ sizeLine "standard (long)" set.values.length standard,
    sizeLine "sparse (long)" set.values.length sparse,
    s!"  sparse/standard long size: {ratio}" ]

def setLines (set : SampleSet) : Except CheckFailure (List String) := do
  return headLines set ++ (← signedLines set) ++ (← longLines set)

def lines (sets : List SampleSet) : Except CheckFailure (List String) := do
  return s!"Loaded {sets.length} sample sets" :: (← sets.mapM setLines).flatten

inductive Failure where
  | unreadableSamples
  | check (failure : CheckFailure)
  deriving DecidableEq

def Failure.message : Failure → String
  | unreadableSamples => "Failed to parse JSON"
  | check failure => failure.message

/-- The comparison on the sets of a sample file, if it could be read. -/
def run (samples : Option (List SampleSet)) : Except Failure (List String) :=
  match samples with
  | some sets => (lines sets).mapError .check
  | none => .error .unreadableSamples

end WordStream.Report.Comparison
