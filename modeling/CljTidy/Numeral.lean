/-
  The number literals.

  After an optional sign a number is one of: a hexadecimal integer (`0x1F`, `0x1FN`), an integer in
  a named radix (`36rZZ`), a ratio (`1/2`), a big integer (`12N`), or a decimal with optional
  fraction, exponent and `M`.  Whichever it is, it starts with a run of decimal digits, so the
  literal is read off the first character behind that run.
-/
import CljTidy.Character.Class

namespace CljTidy.Numeral

open Character

/-! ## Digits of the grammar: ASCII only -/

/-- `0` to `9`. -/
def isDecimal (c : Char) : Bool := '0' ≤ c && c ≤ '9'

/-- A hexadecimal digit in either case. -/
def isHex (c : Char) : Bool :=
  isDecimal c || ('A' ≤ c && c ≤ 'F') || ('a' ≤ c && c ≤ 'f')

/-- A digit of an integer with a named radix: any ASCII letter or digit. -/
def isRadixDigit (c : Char) : Bool :=
  isDecimal c || ('A' ≤ c && c ≤ 'Z') || ('a' ≤ c && c ≤ 'z')

/-- One or more characters of a class. -/
def isRun (p : Char → Bool) (cs : List Char) : Bool := !cs.isEmpty && cs.all p

/-! ## The recogniser -/

/-- Drops a leading sign. -/
def unsigned : List Char → List Char
  | '+' :: rest => rest
  | '-' :: rest => rest
  | cs => cs

/-- What may follow the digits of a decimal, its fraction and its exponent. -/
def isBigSuffix : List Char → Bool
  | [] => true
  | ['M'] => true
  | _ => false

/-- An optional exponent, then an optional `M`. -/
def isExponentTail : List Char → Bool
  | 'e' :: rest => exponent rest
  | 'E' :: rest => exponent rest
  | cs => isBigSuffix cs
where
  /-- The digits of an exponent, signed or not, then an optional `M`. -/
  exponent (cs : List Char) : Bool :=
    !((unsigned cs).takeWhile isDecimal).isEmpty && isBigSuffix ((unsigned cs).dropWhile isDecimal)

/-- Hexadecimal digits, then an optional `N`. -/
def isHexTail (cs : List Char) : Bool :=
  !(cs.takeWhile isHex).isEmpty &&
    (cs.dropWhile isHex == [] || cs.dropWhile isHex == ['N'])

/-- What may follow the leading digits of an unsigned number. -/
def isTail (digits : List Char) : List Char → Bool
  | ['N'] => true
  | '/' :: rest => isRun isDecimal rest
  | 'r' :: rest => isRun isRadixDigit rest
  | 'R' :: rest => isRun isRadixDigit rest
  | 'x' :: rest => digits == ['0'] && isHexTail rest
  | 'X' :: rest => digits == ['0'] && isHexTail rest
  | '.' :: rest => isExponentTail (rest.dropWhile isDecimal)
  | cs => isExponentTail cs

/-- The text is a number literal as a whole. -/
def isNumber (text : List Char) : Bool :=
  let digits := (unsigned text).takeWhile isDecimal
  !digits.isEmpty && isTail digits ((unsigned text).dropWhile isDecimal)

/-- The text has to be a number: a digit of any script stands first, or right behind a sign. -/
def startsNumber : List Char → Bool
  | c :: rest =>
      isDigit c || ((c == '+' || c == '-') && (rest.head?.map isDigit).getD false)
  | [] => false

end CljTidy.Numeral
