/-
  Cutting a whole text into tokens.

  `Scan.from` reads token after token until the text is used up or a token cannot be read, and says
  how far it came.  `tokenize` is its answer as a list of tokens or an error; `Scanner` is the same
  work done step by step, for callers that stop in between and go on later.
-/
import CljTidy.Token.Lossless

namespace CljTidy

open Character

/-! ## The whole text -/

/-- How far a text was cut: the tokens, the characters of the last one tried, the characters left,
    the place reached, and the fault if one stopped it. -/
structure Scan where
  tokens : List Token
  span : List Char
  rest : List Char
  position : Position
  fault : Option SyntaxError

/-- The place a fault is reported at: the start of its token, unless the text ended under way. -/
def LexicalFault.place (start : Position) (taken : List Char) : LexicalFault → Position
  | .pastEnd => start.after taken
  | _ => start

/-- A fault with its place, for a token that starts at `start`. -/
def LexicalFault.located (start : Position) (taken : List Char) (fault : LexicalFault) :
    SyntaxError :=
  ⟨.lexical fault, fault.place start taken⟩

/-- Cuts the characters `cs`, which start at `position`, into tokens; `span` holds the characters of
    the token before. -/
def Scan.from (span : List Char) (position : Position) (cs : List Char) : Scan :=
  match cs with
  | [] => ⟨[Token.atEnd position], span, [], position, none⟩
  | c :: cs =>
      match _h : (Lexeme.read c cs).outcome with
      | .error fault =>
          let lexeme := Lexeme.read c cs
          ⟨[], lexeme.taken, lexeme.rest, position.after lexeme.taken,
            some (fault.located position lexeme.taken)⟩
      | .ok (kind, value) =>
          let lexeme := Lexeme.read c cs
          let later := Scan.from lexeme.taken (position.after lexeme.taken) lexeme.rest
          { later with tokens := ⟨kind, some value, position⟩ :: later.tokens }
termination_by cs.length
decreasing_by exact Lexeme.rest_length_lt _h

/-- The tokens of a text, with the one that marks its end. -/
def tokenize (text : String) : Except SyntaxError (List Token) :=
  let scan := Scan.from [] {} text.toList
  match scan.fault with
  | some e => .error e
  | none => .ok scan.tokens

/-! ## Step by step -/

/-- A text that is being cut: what is left of it, the characters since the last token began, the
    place, and the tokens so far. -/
structure Scanner where
  text : List Char
  rest : List Char
  span : List Char := []
  position : Position := {}
  tokens : List Token := []

namespace Scanner

/-- A scanner at the start of a text. -/
def ofText (text : String) : Scanner := { text := text.toList, rest := text.toList }

/-- How many characters have been read. -/
def offset (s : Scanner) : Nat := s.text.length - s.rest.length

/-- The character at the front of what is left; NUL at the end. -/
def current (s : Scanner) : Char := s.rest.head?.getD '\x00'

/-- The character `n` places on; NUL behind the end.  A place before the start counts back from the
    end of the text, and there is no character further back than that. -/
def peek? (s : Scanner) (n : Int) : Option Char :=
  let place := s.offset + n
  if s.text.length ≤ place then some '\x00'
  else if 0 ≤ place then s.text[place.toNat]?
  else if 0 ≤ place + s.text.length then s.text[(place + s.text.length).toNat]?
  else none

/-- The characters since the last token began. -/
def value (s : Scanner) : String := String.ofList s.span

/-- Starts a token here. -/
def start (s : Scanner) : Scanner := { s with span := [] }

/-- Takes characters off the front into the current token. -/
def take (s : Scanner) (taken rest : List Char) : Scanner :=
  { s with rest := rest, span := s.span ++ taken, position := s.position.after taken }

/-- Moves on by `n` characters, or to the end of the text and fails. -/
def advance (s : Scanner) (n : Nat) : Option SyntaxError × Scanner :=
  let moved := s.take (s.rest.take n) (s.rest.drop n)
  if n ≤ s.rest.length then (none, moved)
  else (some (LexicalFault.pastEnd.located s.position s.rest), moved)

/-- Moves over the longest run of a class. -/
def skipWhile (s : Scanner) (p : Char → Bool) : Scanner :=
  s.take (s.rest.takeWhile p) (s.rest.dropWhile p)

/-- Reads one token with the given reader; what it took stays taken if it fails. -/
def read (s : Scanner) (reader : List Char → Lexeme) : Option SyntaxError × Scanner :=
  let lexeme := reader s.rest
  let moved := s.start.take lexeme.taken lexeme.rest
  match lexeme.outcome with
  | .error fault => (some (fault.located s.position lexeme.taken), moved)
  | .ok (kind, value) =>
      (none, { moved with tokens := s.tokens ++ [⟨kind, some value, s.position⟩] })

/-- Forgets the tokens so far and cuts what is left of the text. -/
def finish (s : Scanner) : Option SyntaxError × Scanner :=
  let scan := Scan.from s.span s.position s.rest
  (scan.fault,
    { s with
      rest := scan.rest, span := scan.span, position := scan.position, tokens := scan.tokens })

end Scanner

end CljTidy
