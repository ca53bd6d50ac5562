/-!
# Hexadecimal bytes
-/

namespace WordStream.Text

/-- The lower-case digit of a number below sixteen. -/
def hexDigit (n : Nat) : Char := "0123456789abcdef".toList.getD n '0'

def hexByte (byte : UInt8) : String :=
  String.ofList [hexDigit (byte.toNat / 16), hexDigit (byte.toNat % 16)]

/-- The digits of bytes, one blank between two bytes. -/
def hexDump (bytes : List UInt8) : String := " ".intercalate (bytes.map hexByte)

/-- The number whose hexadecimal digit a character is, in either letter case. -/
def hexDigitValue? (c : Char) : Option Nat :=
  if '0' ≤ c ∧ c ≤ '9' then some (c.toNat - '0'.toNat)
  else if 'a' ≤ c ∧ c ≤ 'f' then some (c.toNat - 'a'.toNat + 10)
  else if 'A' ≤ c ∧ c ≤ 'F' then some (c.toNat - 'A'.toNat + 10)
  else none

end WordStream.Text
