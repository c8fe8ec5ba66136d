/-
  What can be wrong with a source text.

  A fault is a cause; `message` puts it into words, and a `SyntaxError` adds the place.  Lexical
  faults belong to a single token, reading faults to the way tokens follow each other.
-/
import CljTidy.Token.Basic

namespace CljTidy

/-! ## Causes -/

/-- A token that cannot be completed. -/
inductive LexicalFault
  | pastEnd
  | unterminatedString
  | missingCharacter
  | unsupportedDispatch (following : Char)
  | missingSymbolicName
  | conditionalWithoutList
  | unexpectedCharacter (found : Char)
  | invalidNumber (text : String)
  | invalidKeyword (text : String)
  deriving Repr, DecidableEq

/-- A token that does not fit where it stands. -/
inductive ReadingFault
  | unexpectedKind (expected : List TokenKind) (found : TokenKind)
  | unexpectedValue (expected : String) (found : Option String)
  | unmatchedCloser (closer : Option String)
  | unexpectedCloser (closer : Option String)
  | mismatchedCloser (closer : Option String) (closing opening : String) (openedAt : Nat)
  | unclosed (opening : String)
  | danglingMark (mark : Option String)
  | namespaceWithoutMap
  | unexpectedEnd (found : TokenKind)
  deriving Repr, DecidableEq

/-- The cause of a syntax error. -/
inductive Fault
  | lexical (cause : LexicalFault)
  | reading (cause : ReadingFault)
  deriving Repr, DecidableEq

/-! ## Wording -/

/-- How a missing spelling is written. -/
def spelled (value : Option String) : String := value.getD "None"

/-- A cause in words. -/
def LexicalFault.message : LexicalFault → String
  | pastEnd => "Attempt to advance beyond end of input"
  | unterminatedString => "Unterminated string"
  | missingCharacter => "Character literal is missing its character"
  | unsupportedDispatch c => "Unsupported dispatch macro '#" ++ c.toString ++ "'"
  | missingSymbolicName => "Symbolic value is missing its name"
  | conditionalWithoutList => "Reader conditional must be followed by a list"
  | unexpectedCharacter c => "Unexpected character '" ++ c.toString ++ "'"
  | invalidNumber text => "Invalid number '" ++ text ++ "'"
  | invalidKeyword text => "Invalid keyword '" ++ text ++ "'"

/-- A cause in words. -/
def ReadingFault.message : ReadingFault → String
  | unexpectedKind expected found =>
      "Expected token type [" ++ ", ".intercalate (expected.map TokenKind.shown) ++ "], but got "
        ++ found.title
  | unexpectedValue expected found =>
      "Expected token value " ++ expected ++ ", but got " ++ spelled found
  | unmatchedCloser closer => "Unmatched delimiter '" ++ spelled closer ++ "'"
  | unexpectedCloser closer => "Unexpected closing delimiter '" ++ spelled closer ++ "'"
  | mismatchedCloser closer closing opening line =>
      "Mismatched delimiter '" ++ spelled closer ++ "', expected '" ++ closing ++ "' to close '"
        ++ opening ++ "' from line " ++ toString line
  | unclosed opening => "Unclosed delimiter '" ++ opening ++ "'"
  | danglingMark mark => "'" ++ spelled mark ++ "' is not followed by a form"
  | namespaceWithoutMap => "Namespaced map prefix must be followed by a map"
  | unexpectedEnd found => "Unexpected token type " ++ found.title

/-- A cause in words. -/
def Fault.message : Fault → String
  | lexical cause => cause.message
  | reading cause => cause.message

/-- A fault and its place in the source text. -/
structure SyntaxError where
  fault : Fault
  position : Position
  deriving Repr, DecidableEq

/-- The fault in words, without its place. -/
def SyntaxError.reason (e : SyntaxError) : String := e.fault.message

/-- The fault in words, with its place. -/
def SyntaxError.message (e : SyntaxError) : String :=
  s!"{e.reason} at {e.position.line}:{e.position.column}"

end CljTidy
