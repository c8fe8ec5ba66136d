/-
  Reading tokens into a syntax tree.

  `step` says what one token does to the open frames, and `run` folds it over the tokens.  The scope
  decides what happens with no frame open: a document goes on to the end of the text, a single form
  stops as soon as it is complete.  The end of the token list is an end of text like any other.

  The frames are the calls of a reader by recursive descent that have not returned yet; that both
  read the same is shown in `CljTidy.Proofs.Reading.Descent`.
-/
import CljTidy.Reading.Frame
import CljTidy.Token.Scan

namespace CljTidy.Reading

/-- What is being read: everything up to the end of the text, or one node. -/
inductive Scope
  | document
  | form
  deriving Repr, DecidableEq

/-! ## One token -/

/-- A comment: kept as a child inside brackets, lifted behind a mark. -/
def stepComment (text : String) : List Frame → Move
  | .owing duty token lifted :: frames =>
      .go (.owing duty token (lifted ++ [.comment text, .newline "\n"]) :: frames)
  | frames => complete frames [] (.comment text)

/-- Trivia: kept as a child inside brackets, skipped behind a mark. -/
def stepTrivia (kind : LeafKind) (text : String) (frames : List Frame) : Move :=
  if owesForm frames then .go frames else complete frames [] (.leaf kind text)

/-- A closing bracket: it has to fit the bracket that was opened last. -/
def stepCloser (scope : Scope) (token : Token) : List Frame → Move
  | [] =>
      match scope with
      | .document => .fault (faultAt token (.unmatchedCloser token.value)) false
      | .form => .fault (faultAt token (.unexpectedCloser token.value)) false
  | .owing _ mark _ :: _ => .fault (faultAt mark (.danglingMark mark.value)) false
  | .opened opener start children :: frames =>
      if token.value = some opener.closing then complete frames [] (opener.build children.reverse)
      else
        .fault
          (faultAt token
            (.mismatchedCloser token.value opener.closing opener.opening start.position.line))
          false

/-- The end of the text: nothing may be open. -/
def stepFinish (scope : Scope) (token : Token) : List Frame → Move
  | [] =>
      match scope with
      | .document => .finished
      | .form => .fault (faultAt token (.unexpectedEnd token.kind)) false
  | .owing _ mark _ :: _ => .fault (faultAt mark (.danglingMark mark.value)) false
  | .opened opener start _ :: _ => .fault (faultAt start (.unclosed opener.opening)) false

/-- What a token does to the open frames. -/
def step (scope : Scope) (frames : List Frame) (token : Token) : Move :=
  match Role.of token with
  | .leaf .atom => complete frames [] (.atom token.text)
  | .leaf .comment => stepComment token.text frames
  | .leaf kind => stepTrivia kind token.text frames
  | .opener opener => .go (.opened opener token [] :: frames)
  | .mark duty => .go (.owing duty token [] :: frames)
  | .closer => stepCloser scope token frames
  | .finish => stepFinish scope token frames

/-- The token becomes a leaf of the tree. -/
def becomesLeaf (frames : List Frame) (token : Token) : Bool :=
  match Role.of token with
  | .leaf .atom => true
  | .leaf .comment => true
  | .leaf _ => !owesForm frames
  | _ => false

/-! ## All tokens -/

/-- How reading came out: the nodes or a fault, the tokens not passed, and the tokens that became
    leaves. -/
structure Result where
  outcome : Except SyntaxError (List Node)
  rest : List Token
  leaves : List Token := []

/-- Adds a leaf in front. -/
def Result.addLeaf (isLeaf : Bool) (token : Token) (r : Result) : Result :=
  if isLeaf then { r with leaves := token :: r.leaves } else r

/-- Reads tokens with some frames open and the nodes in `done` already read, last one first.
    `last` stands for the end of the token list. -/
def run (scope : Scope) (last : Token) : List Frame → List Node → List Token → Result
  | frames, done, [] =>
      match stepFinish scope last frames with
      | .fault error _ => ⟨.error error, [], []⟩
      | _ => ⟨.ok done.reverse, [], []⟩
  | frames, done, token :: tokens =>
      let isLeaf := becomesLeaf frames token
      match step scope frames token with
      | .go frames => (run scope last frames done tokens).addLeaf isLeaf token
      | .yield nodes =>
          match scope with
          | .document =>
              (run scope last [] (nodes.reverse ++ done) tokens).addLeaf isLeaf token
          | .form => Result.addLeaf isLeaf token ⟨.ok nodes, tokens, []⟩
      | .finished => ⟨.ok done.reverse, token :: tokens, []⟩
      | .fault error true => Result.addLeaf isLeaf token ⟨.error error, tokens, []⟩
      | .fault error false => ⟨.error error, token :: tokens, []⟩

/-- The end-of-text token that stands behind a list of tokens. -/
def endOf (tokens : List Token) : Token :=
  .atEnd ((tokens.getLast?.map Token.position).getD {})

/-- Reads a whole token list as a document. -/
def document (tokens : List Token) : Result := run .document (endOf tokens) [] [] tokens

end CljTidy.Reading

namespace CljTidy

/-- The top-level nodes of a source text. -/
def parse (text : String) : Except SyntaxError (List Node) := do
  let tokens ← tokenize text
  (Reading.document tokens).outcome

end CljTidy
