/-
  A place in a list of tokens, for reading piece by piece.

  A cursor can be moved, asked for the current token, told what to expect there, and made to read
  one form.  It stays where a fault was found, so that reading can go on from there.
-/
import CljTidy.Reading.Run

namespace CljTidy.Reading

/-- A list of tokens and how many of them have been passed. -/
structure Cursor where
  tokens : List Token
  position : Nat := 0

/-- Why a piece could not be read: the tokens are malformed, or no bracket opens here. -/
inductive CursorFault
  | malformed (error : SyntaxError)
  | notAnOpener (kind : TokenKind)
  deriving Repr, DecidableEq

namespace Cursor

/-- The token at the cursor; behind the last one, the end of the text. -/
def current (c : Cursor) : Token := (c.tokens[c.position]?).getD (endOf c.tokens)

/-- Moves by `n` tokens, not further than the end. -/
def advance (c : Cursor) (n : Int) : Cursor :=
  { c with position := (min (c.position + n) c.tokens.length).toNat }

/-- The current token is of one of the kinds, and is spelled as asked unless nothing is asked. -/
def expect (c : Cursor) (kinds : List TokenKind) (value : Option String) :
    Except SyntaxError Unit :=
  if !kinds.contains c.current.kind then
    .error (faultAt c.current (.unexpectedKind kinds c.current.kind))
  else
    match value with
    | none => .ok ()
    | some expected =>
        if expected = "" ∨ c.current.value = some expected then .ok ()
        else .error (faultAt c.current (.unexpectedValue expected c.current.value))

/-- The current token, if it is as expected, and the cursor behind it. -/
def consume (c : Cursor) (kinds : List TokenKind) (value : Option String) :
    Except SyntaxError Token × Cursor :=
  match c.expect kinds value with
  | .error e => (.error e, c)
  | .ok _ => (.ok c.current, c.advance 1)

/-- The cursor in front of the tokens that were left. -/
def resume (c : Cursor) (rest : List Token) : Cursor :=
  { c with position := c.tokens.length - rest.length }

/-- Reads one node, with the comments lifted over it. -/
def form (c : Cursor) : Except SyntaxError (List Node) × Cursor :=
  let result := run .form (endOf c.tokens) [] [] (c.tokens.drop c.position)
  (result.outcome, c.resume result.rest)

/-- Reads the form that a mark in front of the cursor would take: lifted comments and the form.
    The current token stands for the mark in messages. -/
def target (c : Cursor) : Except SyntaxError (List Node × Option Node) × Cursor :=
  let result :=
    run .form (endOf c.tokens) [.owing .form c.current []] [] (c.tokens.drop c.position)
  (result.outcome.map fun nodes => (nodes.dropLast, nodes.getLast?), c.resume result.rest)

/-- Reads the collection that opens at the cursor. -/
def collection (c : Cursor) : Except CursorFault (List Node) × Cursor :=
  match Role.of c.current with
  | .opener _ =>
      let (outcome, moved) := c.form
      (outcome.mapError .malformed, moved)
  | _ => (.error (.notAnOpener c.current.kind), c)

/-- Reads all tokens from the first on. -/
def document (c : Cursor) : Except SyntaxError (List Node) × Cursor :=
  let result := Reading.document c.tokens
  (result.outcome, c.resume result.rest)

end Cursor

end CljTidy.Reading
