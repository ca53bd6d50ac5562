/-!
# Reading signed numbers of 64 bits

A number is written as an optional sign and one or more decimal digits, leading zeros allowed.  It is
read from the left, and the first thing that is wrong is told: a character that is no digit, or the
digit that takes the number out of range.
-/

namespace WordStream.Text

/-- Why a text is no signed number of 64 bits. -/
inductive NumberError where
  | empty
  -- A character is no digit, or a sign stands alone.
  | invalidDigit
  | aboveRange
  | belowRange
  deriving DecidableEq

def NumberError.name : NumberError → String
  | empty => "Empty"
  | invalidDigit => "InvalidDigit"
  | aboveRange => "PosOverflow"
  | belowRange => "NegOverflow"

/-- Read digits after those that spell `total`; a number above `limit` is the error `beyond`. -/
def readDigits (limit : Nat) (beyond : NumberError) :
    List Char → (total : Nat) → Except NumberError Nat
  | [], total => .ok total
  | c :: rest, total =>
      if c.isDigit then
        let total := 10 * total + (c.toNat - '0'.toNat)
        if limit < total then .error beyond else readDigits limit beyond rest total
      else .error .invalidDigit

def readMagnitude (limit : Nat) (beyond : NumberError) (digits : List Char) :
    Except NumberError Nat :=
  if digits.isEmpty then .error .invalidDigit else readDigits limit beyond digits 0

def readInt64 (text : String) : Except NumberError Int64 :=
  match text.toList with
  | [] => .error .empty
  | '-' :: digits => do
      return -Int64.ofNat (← readMagnitude Int64.minValue.toInt.natAbs .belowRange digits)
  | '+' :: digits => do
      return Int64.ofNat (← readMagnitude Int64.maxValue.toInt.natAbs .aboveRange digits)
  | digits => do
      return Int64.ofNat (← readMagnitude Int64.maxValue.toInt.natAbs .aboveRange digits)

end WordStream.Text
