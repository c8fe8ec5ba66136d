/-
  Reading one token off the front of a text.

  Each reader takes the characters still to be read and answers with a `Lexeme`: the characters it
  took, the ones it left, and the token or the fault.  A reader trusts its caller about the first
  characters (`read` is the one that looks at them), and whatever happens it takes characters from
  the front only: `taken ++ rest` is the text it was given.
-/
import CljTidy.Character.Class
import CljTidy.Fault
import CljTidy.Numeral

namespace CljTidy

open Character

/-- The outcome of reading one token: characters taken, characters left, token or fault. -/
structure Lexeme where
  taken : List Char
  rest : List Char
  outcome : Except LexicalFault (TokenKind × String)

namespace Lexeme

/-- A token spelled by the characters taken. -/
def spelling (kind : TokenKind) (taken rest : List Char) : Lexeme :=
  ⟨taken, rest, .ok (kind, String.ofList taken)⟩

/-- A token with a fixed spelling. -/
def fixed (kind : TokenKind) (value : String) (taken rest : List Char) : Lexeme :=
  ⟨taken, rest, .ok (kind, value)⟩

/-- A fault after some characters were taken. -/
def failed (fault : LexicalFault) (taken rest : List Char) : Lexeme :=
  ⟨taken, rest, .error fault⟩

/-- A token made of the longest run of a class. -/
def run (kind : TokenKind) (p : Char → Bool) (cs : List Char) : Lexeme :=
  spelling kind (cs.takeWhile p) (cs.dropWhile p)

/-- The first character alone as a token. -/
def single (kind : TokenKind) : List Char → Lexeme
  | c :: rest => spelling kind [c] rest
  | [] => failed .pastEnd [] []

/-! ## Trivia and comments -/

/-- One line break: a line feed, a carriage return, or both. -/
def newline : List Char → Lexeme
  | '\r' :: '\n' :: rest => fixed .newline "\n" ['\r', '\n'] rest
  | c :: rest => fixed .newline "\n" [c] rest
  | [] => failed .pastEnd [] []

/-- White space up to the end of the line. -/
def blanks (cs : List Char) : Lexeme := run .whitespace isBlank cs

/-- A run of commas. -/
def commas (cs : List Char) : Lexeme := run .comma (· == ',') cs

/-- The rest of the line. -/
def comment (cs : List Char) : Lexeme := run .comment (fun c => !isLineBreak c) cs

/-! ## Brackets, strings and characters -/

/-- One bracket. -/
def delimiter : List Char → Lexeme
  | '(' :: rest => spelling .openList ['('] rest
  | '[' :: rest => spelling .openVector ['['] rest
  | '\x7b' :: rest => spelling .openMap ['\x7b'] rest
  | cs => single .close cs

/-- The text behind an opening quote: what belongs to the string, what follows it, and whether the
    closing quote was found.  A backslash takes the next character with it. -/
def stringBody : List Char → List Char × List Char × Bool
  | [] => ([], [], false)
  | '"' :: rest => (['"'], rest, true)
  | ['\\'] => (['\\'], [], false)
  | '\\' :: c :: rest =>
      let (body, left, closed) := stringBody rest
      ('\\' :: c :: body, left, closed)
  | c :: rest =>
      let (body, left, closed) := stringBody rest
      (c :: body, left, closed)

/-- A string, or a regular expression when `front` already holds its `#`. -/
def quoted (kind : TokenKind) (front : List Char) : List Char → Lexeme
  | [] => failed .pastEnd front []
  | c :: cs =>
      let (body, rest, closed) := stringBody cs
      if closed then spelling kind (front ++ c :: body) rest
      else failed .unterminatedString (front ++ c :: body) rest

/-- A string. -/
def string (cs : List Char) : Lexeme := quoted .string [] cs

/-- A character literal; a letter or digit lets it run on, as in `\newline`. -/
def character : List Char → Lexeme
  | [] => failed .pastEnd [] []
  | [c] => failed .missingCharacter [c] []
  | c :: first :: cs =>
      if isAlphanumeric first then
        spelling .character (c :: first :: cs.takeWhile isTokenChar) (cs.dropWhile isTokenChar)
      else spelling .character [c, first] cs

/-! ## Marks in front of forms -/

/-- `~` or `~@`. -/
def unquote : List Char → Lexeme
  | c :: '@' :: rest => fixed .unquoteSplicing "~@" [c, '@'] rest
  | c :: rest => fixed .unquote "~" [c] rest
  | [] => failed .pastEnd [] []

/-- `#?(` or `#?@(`. -/
def conditional : List Char → Lexeme
  | a :: b :: '(' :: rest => spelling .openConditional [a, b, '('] rest
  | a :: b :: '@' :: '(' :: rest => spelling .openConditional [a, b, '@', '('] rest
  | cs => failed .conditionalWithoutList [] cs

/-- `##` and a name. -/
def symbolic (a b : Char) (cs : List Char) : Lexeme :=
  let taken := a :: b :: cs.takeWhile isTokenChar
  let rest := cs.dropWhile isTokenChar
  if taken == ['#', '#'] then failed .missingSymbolicName taken rest
  else spelling .symbolic taken rest

/-- Whatever a `#` starts: the second character decides. -/
def dispatch : List Char → Lexeme
  | a :: '\x7b' :: rest => fixed .openSet "#\x7b" [a, '\x7b'] rest
  | a :: '(' :: rest => fixed .openFn "#(" [a, '('] rest
  | a :: '\x27' :: rest => fixed .varQuote "#'" [a, '\x27'] rest
  | a :: '_' :: rest => fixed .discard "#_" [a, '_'] rest
  | a :: '^' :: rest => fixed .metadata "#^" [a, '^'] rest
  | a :: '!' :: rest => comment (a :: '!' :: rest)
  | a :: '"' :: rest => quoted .regex [a] ('"' :: rest)
  | a :: '?' :: rest => conditional (a :: '?' :: rest)
  | a :: '#' :: rest => symbolic a '#' rest
  | a :: ':' :: rest =>
      spelling .namespacedMap (a :: ':' :: rest.takeWhile isTokenChar) (rest.dropWhile isTokenChar)
  | a :: b :: rest =>
      if isLetter b then
        spelling .tag (a :: (b :: rest).takeWhile isTokenChar) ((b :: rest).dropWhile isTokenChar)
      else failed (.unsupportedDispatch b) [] (a :: b :: rest)
  | cs => failed (.unsupportedDispatch '\x00') [] cs

/-! ## Words -/

/-- A keyword that names nothing: `:` or `::` alone, three colons in front, or a colon at the
    end. -/
def isBadKeyword (text : List Char) : Bool :=
  text.head? == some ':' &&
    (text == [':'] || text == [':', ':'] || text.take 3 == [':', ':', ':']
      || text.getLast? == some ':')

/-- A symbol, keyword or number. -/
def word (cs : List Char) : Lexeme :=
  let taken := cs.takeWhile isTokenChar
  let rest := cs.dropWhile isTokenChar
  if taken.isEmpty then failed (.unexpectedCharacter (cs.head?.getD '\x00')) taken rest
  else if Numeral.startsNumber taken && !Numeral.isNumber taken then
    failed (.invalidNumber (String.ofList taken)) taken rest
  else if isBadKeyword taken then failed (.invalidKeyword (String.ofList taken)) taken rest
  else spelling .word taken rest

/-! ## Any token -/

/-- The reader for a token that starts with `c`. -/
def reader (c : Char) : List Char → Lexeme :=
  if isLineBreak c then newline
  else if isBlank c then blanks
  else if c = ',' then commas
  else if c = ';' then comment
  else if isDelimiter c then delimiter
  else if c = '"' then string
  else if c = '\\' then character
  else if c = '#' then dispatch
  else if c = '~' then unquote
  else if c = '\x27' then single .quote
  else if c = '\x60' then single .syntaxQuote
  else if c = '@' then single .deref
  else if c = '^' then single .metadata
  else word

/-- The token at the front of a text that starts with `c`. -/
def read (c : Char) (cs : List Char) : Lexeme := reader c (c :: cs)

end Lexeme

end CljTidy
