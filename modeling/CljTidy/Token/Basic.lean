/-
  Tokens: the words a source text is cut into, and their places.

  Every character of a text belongs to one token, trivia included, so that a document keeps its
  comments.  A token knows what it is, how it is spelled and where it starts; the one at the end of
  the text has no spelling.

  Lines are counted by line feeds and columns by characters, both from one.  A place moves over a
  text character by character, so moving over two texts in turn is moving over their concatenation.
-/

namespace CljTidy

/-! ## Places -/

/-- A line and a column, both counted from one. -/
structure Position where
  line : Nat := 1
  column : Nat := 1
  deriving Repr, DecidableEq, Inhabited

namespace Position

/-- The place after one more character: a line feed starts a new line. -/
def step (p : Position) (c : Char) : Position :=
  if c = '\n' then ⟨p.line + 1, 1⟩ else ⟨p.line, p.column + 1⟩

/-- The place after a text. -/
def after (p : Position) (text : List Char) : Position := text.foldl step p

@[simp] theorem after_nil (p : Position) : p.after [] = p := rfl

@[simp] theorem after_cons (p : Position) (c : Char) (cs : List Char) :
    p.after (c :: cs) = (p.step c).after cs := rfl

/-- Moving over two texts in turn is moving over the two put together. -/
theorem after_append (p : Position) (xs ys : List Char) :
    p.after (xs ++ ys) = (p.after xs).after ys := by
  simp [after]

end Position

/-! ## Kinds of tokens -/

/-- What a token is. -/
inductive TokenKind
  | whitespace | newline | comma | comment
  | openList | openVector | openMap | openSet | openFn | openConditional | close
  | quote | syntaxQuote | unquote | unquoteSplicing | deref | metadata | varQuote | discard
  | tag | namespacedMap
  | string | regex | character | symbolic | word
  | endOfText
  deriving Repr, DecidableEq, Inhabited

namespace TokenKind

/-- All kinds, in the order they are numbered. -/
def all : List TokenKind :=
  [whitespace, newline, comma, comment, openList, openVector, openMap, openSet, openFn,
   openConditional, close, quote, syntaxQuote, unquote, unquoteSplicing, deref, metadata,
   varQuote, discard, tag, namespacedMap, string, regex, character, symbolic, word, endOfText]

/-- The name of a kind in messages. -/
def label : TokenKind → String
  | whitespace => "WHITESPACE"
  | newline => "NEWLINE"
  | comma => "COMMA"
  | comment => "COMMENT"
  | openList => "OPEN_LIST"
  | openVector => "OPEN_VECTOR"
  | openMap => "OPEN_MAP"
  | openSet => "OPEN_SET"
  | openFn => "OPEN_FN"
  | openConditional => "OPEN_READER_CONDITIONAL"
  | close => "CLOSE"
  | quote => "QUOTE"
  | syntaxQuote => "SYNTAX_QUOTE"
  | unquote => "UNQUOTE"
  | unquoteSplicing => "UNQUOTE_SPLICING"
  | deref => "DEREF"
  | metadata => "META"
  | varQuote => "VAR_QUOTE"
  | discard => "UNEVAL"
  | tag => "TAG"
  | namespacedMap => "NAMESPACED_MAP"
  | string => "STRING"
  | regex => "REGEX"
  | character => "CHARACTER"
  | symbolic => "SYMBOLIC"
  | word => "TOKEN"
  | endOfText => "EOF"

/-- The number of a kind in messages, from one. -/
def number (kind : TokenKind) : Nat := all.idxOf kind + 1

/-- The kind with a given name. -/
def ofLabel? (name : String) : Option TokenKind := all.find? fun kind => kind.label == name

/-- The qualified name of a kind. -/
def title (kind : TokenKind) : String := "TokenType." ++ kind.label

/-- The qualified name of a kind with its number. -/
def shown (kind : TokenKind) : String := s!"<{kind.title}: {kind.number}>"

/-- Space, line breaks and commas: what stands between forms and means nothing. -/
def isTrivia : TokenKind → Bool
  | whitespace => true
  | newline => true
  | comma => true
  | _ => false

/-- Tokens that are a form on their own. -/
def isAtom : TokenKind → Bool
  | string => true
  | regex => true
  | character => true
  | symbolic => true
  | word => true
  | _ => false

end TokenKind

/-! ## Tokens -/

/-- A token: its kind, its spelling and the place of its first character. -/
structure Token where
  kind : TokenKind
  value : Option String
  position : Position
  deriving Repr, DecidableEq, Inhabited

namespace Token

/-- The token that marks the end of a text. -/
def atEnd (position : Position) : Token := ⟨.endOfText, none, position⟩

/-- The spelling, empty at the end of the text. -/
def text (token : Token) : String := token.value.getD ""

end Token

end CljTidy
