/-
  The character classes the source language is cut by.

  Three classes decide where a token ends: blanks, delimiters and token characters.  The Unicode
  classes (`isSpace`, `isLetter`, `isDigit`, `isAlphanumeric`) are read off the tables; a token
  character is whatever is left once spaces, brackets, commas, quotes, semicolons and NUL are gone.
-/
import CljTidy.Character.Hidden
import CljTidy.Character.Letter

namespace CljTidy.Character

/-! ## Unicode classes -/

/-- The code points that count as white space. -/
def spaceRanges : Ranges :=
  [(0x0009, 0x000D), (0x001C, 0x0020), (0x0085, 0x0085), (0x00A0, 0x00A0), (0x1680, 0x1680),
   (0x2000, 0x200A), (0x2028, 0x2029), (0x202F, 0x202F), (0x205F, 0x205F), (0x3000, 0x3000)]

/-- White space, line breaks included. -/
def isSpace (c : Char) : Bool := spaceRanges.contains c

/-- A letter of any script. -/
def isLetter (c : Char) : Bool := letterRanges.contains c

/-- A character with a digit value, in any script. -/
def isDigit (c : Char) : Bool := digitRanges.contains c

/-- A digit that numbers in base ten are written with, in any script. -/
def isDecimalDigit (c : Char) : Bool := decimalRanges.contains c

/-- A letter, a digit or any other character with a numeric value. -/
def isAlphanumeric (c : Char) : Bool :=
  isLetter c || isDigit c || numericRanges.contains c

/-- A character that a quoted text shows as itself. -/
def isPrintable (c : Char) : Bool := !hiddenRanges.contains c

/-! ## Classes of the source language -/

/-- Line feed and carriage return end a line. -/
def isLineBreak (c : Char) : Bool := c == '\n' || c == '\r'

/-- White space inside a line. -/
def isBlank (c : Char) : Bool := isSpace c && !isLineBreak c

/-- The six brackets. -/
def isDelimiter (c : Char) : Bool :=
  c == '(' || c == ')' || c == '[' || c == ']' || c == '\x7b' || c == '\x7d'

/-- A character that a symbol, keyword or number can continue with. -/
def isTokenChar (c : Char) : Bool :=
  !(isSpace c || isDelimiter c || c == ',' || c == '"' || c == ';' || c == '\x00')

end CljTidy.Character
