import WordStream.Report.Encoding
import WordStream.Text.Hex
import WordStream.Text.Ratio
import WordStream.Text.SignedNumber

/-!
# The dump of a list of numbers

The numbers, and their bytes as double words in both formats, with the length per number.
-/

namespace WordStream.Report.Dump

inductive Failure where
  | argument (error : Text.NumberError)
  | check (failure : CheckFailure)
  deriving DecidableEq

def Failure.message : Failure → String
  | argument error =>
      s!"arguments must be integers: ParseIntError \x7b kind: {error.name} \x7d"
  | check failure => failure.message

/-- The numbers of which a dump is made when none are given. -/
def sample : List Int64 := [0, 0, 0, 1, -1, 0, 65, 0, 0, Int64.minValue, 0, 0x10000000000]

def numbersText (numbers : List Int64) : String :=
  "[" ++ ", ".intercalate (numbers.map fun number => toString number.toInt) ++ "]"

/-- The size of an encoding of `count` numbers, under a heading, and its bytes. -/
def encodingLines (heading : String) (count : Nat) (bytes : Array UInt8) : List String :=
  [ heading ++ s!"{bytes.size} bytes, {(Text.Ratio.mk bytes.size count).fixed 2} bytes/value",
    "  " ++ Text.hexDump bytes.toList ]

/-- The dump of a list of numbers. -/
def lines (numbers : List Int64) : Except CheckFailure (List String) := do
  let standard ← checkedBytes .standard .long numbers
  let sparse ← checkedBytes .sparse .long numbers
  return ["values:   " ++ numbersText numbers]
    ++ encodingLines "standard: " numbers.length standard
    ++ encodingLines "sparse:   " numbers.length sparse
    ++ ["", "round trip OK"]

/-- The numbers that arguments ask for, or the error of the first bad one. -/
def numbersOf (arguments : List String) : Except Text.NumberError (List Int64) :=
  if arguments.isEmpty then .ok sample else arguments.mapM Text.readInt64

def run (arguments : List String) : Except Failure (List String) := do
  let numbers ← (numbersOf arguments).mapError .argument
  (lines numbers).mapError .check

end WordStream.Report.Dump
