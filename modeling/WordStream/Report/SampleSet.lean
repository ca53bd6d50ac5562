/-!
# Sample sets
-/

namespace WordStream.Report

/-- A named list of numbers on which the formats are compared. -/
structure SampleSet where
  name : String
  values : List Int64
  deriving DecidableEq

end WordStream.Report
