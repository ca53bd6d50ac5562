import WordStream.Text.Hex

/-!
# Tokens of a JSON text

The text is scanned one character at a time.  Between strings it falls into punctuation, blanks and
words; a word is a maximal run of other characters and has to be a literal or a number.
-/

namespace WordStream.Json

/-- A piece of a string: a character, or one half of a surrogate pair that was written as an escape
of its own. -/
inductive Piece where
  | char (c : Char)
  | half (unit : Nat)
  deriving DecidableEq

/-- The piece that the escape of a 16-bit unit stands for. -/
def Piece.ofUnit (unit : Nat) : Piece :=
  if 0xD800 ≤ unit ∧ unit < 0xE000 then .half unit else .char (Char.ofNat unit)

/-- The characters of a string, if its halves pair up, each high one directly before a low one. -/
def characters? : List Piece → Option (List Char)
  | [] => some []
  | .char c :: rest => (characters? rest).map (c :: ·)
  | .half high :: .half low :: rest =>
      if high < 0xDC00 ∧ 0xDC00 ≤ low then
        let c := Char.ofNat (0x10000 + (high - 0xD800) * 0x400 + (low - 0xDC00))
        (characters? rest).map (c :: ·)
      else none
  | .half _ :: _ => none

/-- A number: its sign, the digits before the point, and whether a fraction or an exponent follows. -/
structure Numeral where
  negative : Bool
  whole : Nat
  isWhole : Bool
  deriving DecidableEq

/-- The integer that a numeral denotes.  A fraction, an exponent, or a sign before zero marks a
number that is not meant as an integer, whatever its value. -/
def Numeral.toInt? (n : Numeral) : Option Int :=
  if n.isWhole && !(n.negative && n.whole == 0) then
    some (if n.negative then -n.whole else n.whole)
  else none

inductive Token where
  | openArray
  | closeArray
  | openObject
  | closeObject
  | colon
  | comma
  | null
  | bool (b : Bool)
  | number (n : Numeral)
  | string (pieces : List Piece)
  deriving DecidableEq

namespace Token

def ofPunctuation? : Char → Option Token
  | '[' => some openArray
  | ']' => some closeArray
  | '\x7b' => some openObject
  | '\x7d' => some closeObject
  | ':' => some colon
  | ',' => some comma
  | _ => none

def isBlank (c : Char) : Bool := c == ' ' || c == '\t' || c == '\n' || c == '\r'

/-- Whether the text is one or more digits. -/
def isDigits (cs : List Char) : Bool := !cs.isEmpty && cs.all Char.isDigit

/-- Whether the text is an exponent without its mark: an optional sign and digits. -/
def isExponent : List Char → Bool
  | '+' :: digits => isDigits digits
  | '-' :: digits => isDigits digits
  | digits => isDigits digits

def isExponentMark (c : Char) : Bool := c == 'e' || c == 'E'

/-- Whether the text may follow the whole part of a number, which it does not extend: nothing, or a
fraction, or an exponent, or both in this order. -/
def isFraction : List Char → Bool
  | [] => true
  | '.' :: rest =>
      let digits := rest.takeWhile (!isExponentMark ·)
      let exponent := rest.dropWhile (!isExponentMark ·)
      isDigits digits && (exponent.isEmpty || isExponent (exponent.drop 1))
  | c :: rest => isExponentMark c && isExponent rest

def digitsValue (digits : List Char) : Nat :=
  digits.foldl (fun total c => 10 * total + (c.toNat - '0'.toNat)) 0

/-- The numeral of a given sign that a word without a sign is: its whole part is zero, or starts with
another digit than zero. -/
def unsigned? (negative : Bool) (word : List Char) : Option Numeral :=
  let whole := word.takeWhile Char.isDigit
  let rest := word.dropWhile Char.isDigit
  if whole.isEmpty || (whole.head? == some '0' && whole.length != 1) || !isFraction rest then none
  else some ⟨negative, digitsValue whole, rest.isEmpty⟩

def ofWord? (word : List Char) : Option Token :=
  if word = "null".toList then some null
  else if word = "true".toList then some (bool true)
  else if word = "false".toList then some (bool false)
  else match word with
    | '-' :: rest => (unsigned? true rest).map number
    | _ => (unsigned? false word).map number

end Token

/-- What the scanner is inside of. -/
inductive Mode where
  -- A word, empty between tokens, its last character first.
  | word (reversed : List Char)
  -- A string, its last piece first.
  | string (reversed : List Piece)
  -- An escape, right after its backslash.
  | escape (reversed : List Piece)
  -- An escape of a 16-bit unit of which `missing + 1` digits are still to come.
  | unit (reversed : List Piece) (missing value : Nat)
  deriving DecidableEq

/-- The tokens so far, the last one first, and what the scanner is inside of. -/
structure Scan where
  reversed : List Token
  mode : Mode
  deriving DecidableEq

namespace Scan

def start : Scan := ⟨[], .word []⟩

/-- The tokens with the word that has just ended, if there is one. -/
def endWord (tokens : List Token) (word : List Char) : Option (List Token) :=
  if word.isEmpty then some tokens
  else (Token.ofWord? word.reverse).map (· :: tokens)

/-- The character that an escape of one letter stands for. -/
def escaped? : Char → Option Char
  | '"' => some '"'
  | '\\' => some '\\'
  | '/' => some '/'
  | 'b' => some '\x08'
  | 'f' => some '\x0c'
  | 'n' => some '\n'
  | 'r' => some '\r'
  | 't' => some '\t'
  | _ => none

def step (s : Scan) (c : Char) : Option Scan :=
  match s.mode with
  | .word word =>
      if Token.isBlank c then do return ⟨← endWord s.reversed word, .word []⟩
      else if c = '"' then do return ⟨← endWord s.reversed word, .string []⟩
      else match Token.ofPunctuation? c with
        | some token => do return ⟨token :: (← endWord s.reversed word), .word []⟩
        | none => some ⟨s.reversed, .word (c :: word)⟩
  | .string pieces =>
      if c = '"' then some ⟨.string pieces.reverse :: s.reversed, .word []⟩
      else if c = '\\' then some ⟨s.reversed, .escape pieces⟩
      else if c < ' ' then none
      else some ⟨s.reversed, .string (.char c :: pieces)⟩
  | .escape pieces =>
      if c = 'u' then some ⟨s.reversed, .unit pieces 3 0⟩
      else do return ⟨s.reversed, .string (.char (← escaped? c) :: pieces)⟩
  | .unit pieces missing value => do
      let value := 16 * value + (← Text.hexDigitValue? c)
      match missing with
      | 0 => return ⟨s.reversed, .string (.ofUnit value :: pieces)⟩
      | missing + 1 => return ⟨s.reversed, .unit pieces missing value⟩

/-- The tokens of a text that has ended, unless it ended inside a string. -/
def finish? (s : Scan) : Option (List Token) :=
  match s.mode with
  | .word word => (endWord s.reversed word).map List.reverse
  | _ => none

end Scan

def tokens? (text : String) : Option (List Token) := do
  (← text.toList.foldlM Scan.step Scan.start).finish?

end WordStream.Json
