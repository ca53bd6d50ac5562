import WordStream.Sparse.Reader
import WordStream.Sparse.Writer
import WordStream.Standard.Reader
import WordStream.Standard.Writer

/-!
# Encodings of a list of numbers

Numbers are encoded in either format, as signed words or as double words, and every encoding is
checked by reading it back.
-/

namespace WordStream.Report

inductive Format where
  | standard
  | sparse
  deriving DecidableEq

def Format.name : Format → String
  | standard => "standard"
  | sparse => "sparse"

/-- The typed call with which numbers are written and read. -/
inductive Width where
  -- As signed words; a number keeps its low half only.
  | signed
  | long
  deriving DecidableEq

/-- Why a list of numbers could not be encoded, or was not read back. -/
inductive CheckFailure where
  | refused (format : Format) (fault : Fault)
  | unreadable (format : Format) (error : DecodeError)
  | mismatch (format : Format) (read written : Int64)
  deriving DecidableEq

def CheckFailure.message : CheckFailure → String
  | refused _ fault => fault.message
  | unreadable format error => s!"Failed to decode {format.name} stream: {error.message}"
  | mismatch format read written =>
      s!"{format.name} round trip mismatch: read {read.toInt} for {written.toInt}"

namespace Width

def write {σ : Type} [WordWriter σ] : Width → Int64 → WriteM σ Unit
  | signed, number => writeSigned number.toInt32
  | long, number => writeLong number

def read {ρ : Type} [WordReader ρ] : Width → ReadM ρ Int64
  | signed => do return (← readSigned).toInt64
  | long => readLong

end Width

namespace Format

/-- The bytes of numbers written one after the other. -/
def encode (format : Format) (width : Width) (numbers : List Int64) :
    Except CheckFailure (Array UInt8) :=
  match format with
  | standard =>
      match (numbers.forM width.write).run Standard.Writer.empty with
      | .ok _ w => .ok w.toBytes
      | .error fault _ => .error (.refused standard fault)
  | sparse =>
      match (numbers.forM width.write).run Sparse.Writer.empty with
      | .ok _ w => .ok w.toBytes
      | .error fault _ => .error (.refused sparse fault)

/-- Read numbers one after the other and compare each with the one expected. -/
def checkAll {ρ : Type} [WordReader ρ] (format : Format) (width : Width) :
    List Int64 → ρ → Except CheckFailure Unit
  | [], _ => .ok ()
  | number :: rest, r =>
      match width.read.run r with
      | .ok read r =>
          if read = number then checkAll format width rest r
          else .error (.mismatch format read number)
      | .error error _ => .error (.unreadable format error)

/-- Check that bytes are read back as the given numbers. -/
def check (format : Format) (width : Width) (numbers : List Int64) (bytes : Array UInt8) :
    Except CheckFailure Unit :=
  match format with
  | standard => format.checkAll width numbers ({ bytes } : Standard.Reader)
  | sparse => format.checkAll width numbers ({ bytes } : Sparse.Reader)

end Format

/-- The bytes of numbers, once they have been read back. -/
def checkedBytes (format : Format) (width : Width) (numbers : List Int64) :
    Except CheckFailure (Array UInt8) := do
  let bytes ← format.encode width numbers
  format.check width numbers bytes
  return bytes

end WordStream.Report
