import WordStream.Json.Tree
import WordStream.Report.SampleSet

/-!
# Sample files

A sample file is a JSON list of sets, each with a name and a list of signed numbers of 64 bits.  A
set is an object with one member `name` and one member `values`, in any order and among members of
other keys, or a list of just the name and the numbers.  The reports take the sets as they were read
here, and know nothing of files.
-/

namespace WordStream.Json

/-- A string without unpaired surrogates. -/
def string? : Json → Option String
  | string pieces => (characters? pieces).map String.ofList
  | _ => none

def int64? : Json → Option Int64
  | number n => do
      let i ← n.toInt?
      if Int64.minValue.toInt ≤ i ∧ i ≤ Int64.maxValue.toInt then return Int64.ofInt i else none
  | _ => none

def int64s? : Json → Option (List Int64)
  | array elements => elements.mapM int64?
  | _ => none

/-- The value of a key that comes exactly once. -/
def only? (key : String) (members : List (String × Json)) : Option Json :=
  match members.filter (·.1 == key) with
  | [(_, value)] => some value
  | _ => none

def sampleSet? : Json → Option Report.SampleSet
  | object members => do
      let members ← members.mapM fun (key, value) => do
        return (String.ofList (← characters? key), value)
      return ⟨← string? (← only? "name" members), ← int64s? (← only? "values" members)⟩
  | array [name, values] => do return ⟨← string? name, ← int64s? values⟩
  | _ => none

/-- The sample sets of the text of a file. -/
def sampleSets? (text : String) : Option (List Report.SampleSet) := do
  match ← ofText? text with
  | array sets => sets.mapM sampleSet?
  | _ => none

end WordStream.Json
