/-
  What is still open while tokens are read.

  Reading goes from left to right over the tokens with a stack of frames.  An opening bracket pushes
  a frame that collects children; a reader mark pushes a frame that owes a form.  A finished node
  goes to the frame on top: a bracket keeps it as a child, a mark turns it into the marked node and
  hands that on.  Comments between a mark and its form are lifted in front of the marked node, each
  with a line break behind it.
-/
import CljTidy.Fault
import CljTidy.Node.Basic

namespace CljTidy.Reading

/-! ## What tokens stand for -/

/-- What an opening token opens. -/
inductive Opener
  | collection (bracket : Bracket)
  | fnLiteral
  | conditional (splicing : Bool)
  deriving Repr, DecidableEq

namespace Opener

/-- How the opener is named in messages. -/
def opening : Opener → String
  | collection bracket => bracket.opening
  | fnLiteral => "#("
  | conditional _ => "#?("

/-- The closing bracket that ends it. -/
def closing : Opener → String
  | collection bracket => bracket.closing
  | fnLiteral => ")"
  | conditional _ => ")"

/-- The node for an opener and its children. -/
def build (children : List Node) : Opener → Node
  | collection bracket => .branch bracket children
  | fnLiteral => .wrap .fnLiteral (.list children)
  | conditional splicing => .wrap (.conditional splicing) (.list children)

end Opener

/-- What a mark owes: the form it wraps, its metadata, the target of metadata already read, or just
    a form. -/
inductive Duty
  | wrap (mark : Mark)
  | metadata
  | target (metadata : Node)
  | form
  deriving Repr, DecidableEq

/-- The part a token plays. -/
inductive Role
  | leaf (kind : LeafKind)
  | opener (opener : Opener)
  | mark (duty : Duty)
  | closer
  | finish
  deriving Repr, DecidableEq

/-- The name behind the first character of a tag or a map namespace. -/
def nameOf (token : Token) : String := String.ofList (token.text.toList.drop 1)

/-- The part a token plays. -/
def Role.of (token : Token) : Role :=
  match token.kind with
  | .whitespace => .leaf .space
  | .newline => .leaf .newline
  | .comma => .leaf .comma
  | .comment => .leaf .comment
  | .string => .leaf .atom
  | .regex => .leaf .atom
  | .character => .leaf .atom
  | .symbolic => .leaf .atom
  | .word => .leaf .atom
  | .openList => .opener (.collection .list)
  | .openVector => .opener (.collection .vector)
  | .openMap => .opener (.collection .map)
  | .openSet => .opener (.collection .set)
  | .openFn => .opener .fnLiteral
  | .openConditional => .opener (.conditional (token.value == some "#?@("))
  | .quote => .mark (.wrap .quote)
  | .syntaxQuote => .mark (.wrap .syntaxQuote)
  | .unquote => .mark (.wrap .unquote)
  | .unquoteSplicing => .mark (.wrap .unquoteSplicing)
  | .deref => .mark (.wrap .deref)
  | .varQuote => .mark (.wrap .varQuote)
  | .discard => .mark (.wrap .discard)
  | .metadata => .mark .metadata
  | .tag => .mark (.wrap (.tagged (nameOf token)))
  | .namespacedMap => .mark (.wrap (.namespaced (nameOf token)))
  | .close => .closer
  | .endOfText => .finish

/-! ## Frames -/

/-- Something that is still open: a bracket with its children so far, last one first, or a mark
    with the comments lifted over it so far. -/
inductive Frame
  | opened (opener : Opener) (token : Token) (children : List Node)
  | owing (duty : Duty) (token : Token) (lifted : List Node)
  deriving Repr, DecidableEq

/-- The top frame is a mark, so trivia in front of the next form is skipped. -/
def owesForm : List Frame → Bool
  | .owing .. :: _ => true
  | _ => false

/-- What a token does to the stack: reading goes on with other frames, a node is finished with no
    frame left (comments lifted over it in front), the text is over, or there is a fault, found
    before or behind the token. -/
inductive Move
  | go (frames : List Frame)
  | yield (nodes : List Node)
  | finished
  | fault (error : SyntaxError) (behind : Bool)
  deriving Repr, DecidableEq

/-- A reading fault at a token. -/
def faultAt (token : Token) (cause : ReadingFault) : SyntaxError := ⟨.reading cause, token.position⟩

/-- A map namespace goes in front of a map only. -/
def accepts : Mark → Node → Bool
  | .namespaced _, node => node.isMap
  | _, _ => true

/-- Hands a finished node, with the comments lifted over it, to the frames. -/
def complete : List Frame → List Node → Node → Move
  | [], lifted, node => .yield (lifted ++ [node])
  | .opened opener token children :: frames, lifted, node =>
      .go (.opened opener token (node :: (lifted.reverse ++ children)) :: frames)
  | .owing duty token held :: frames, lifted, node =>
      match duty with
      | .wrap mark =>
          if accepts mark node then complete frames (held ++ lifted) (.wrap mark node)
          else .fault (faultAt token .namespaceWithoutMap) true
      | .metadata => .go (.owing (.target node) token (held ++ lifted) :: frames)
      | .target metadata => complete frames (held ++ lifted) (.annotated metadata node)
      | .form => complete frames (held ++ lifted) node

end CljTidy.Reading
