/-
  Texts in quotes, for the journal.

  A text is put between single quotes, or between double quotes if it has single quotes and no
  double ones.  The quote in use and the backslash are escaped, and so is every character that
  would not show: the three common ones by letter, the others by code point.
-/
import CljTidy.Character.Class

namespace CljTidy.Quoted

open Character

/-- The quote to put around a text. -/
def quoteFor (text : List Char) : Char :=
  if '\x27' ∈ text ∧ '"' ∉ text then '"' else '\x27'

/-- A number in hexadecimal, with zeros in front up to a width. -/
def hex (width n : Nat) : List Char :=
  let digits := Nat.toDigits 16 n
  List.replicate (width - digits.length) '0' ++ digits

/-- A character that does not show, by its code point. -/
def byCodePoint (c : Char) : List Char :=
  if c.toNat < 0x100 then ['\\', 'x'] ++ hex 2 c.toNat
  else if c.toNat < 0x10000 then ['\\', 'u'] ++ hex 4 c.toNat
  else ['\\', 'U'] ++ hex 8 c.toNat

/-- A character between quotes. -/
def escape (quote c : Char) : List Char :=
  if c = quote ∨ c = '\\' then ['\\', c]
  else if c = '\n' then ['\\', 'n']
  else if c = '\r' then ['\\', 'r']
  else if c = '\t' then ['\\', 't']
  else if isPrintable c then [c]
  else byCodePoint c

/-- A text in quotes. -/
def quote (text : String) : String :=
  let q := quoteFor text.toList
  String.ofList (q :: text.toList.flatMap (escape q) ++ [q])

/-- A text in quotes, or the word for a missing one. -/
def quote? (text : Option String) : String := (text.map quote).getD "None"

end CljTidy.Quoted
