/-
  The tokens a tree is spelled with.

  `Node.pieces` lists the tokens of a node from left to right; put together they spell the text of
  the node (`chars_pieces`).  A node is `Sound` if it is as reading builds nodes: every leaf and
  mark is a token on its own, or fuses with the bracket behind it, a mark stands in front of a form
  it accepts, and collections hold sound nodes.
-/
import CljTidy.Proofs.Token.Piece
import CljTidy.Reading.Frame

namespace CljTidy

/-! ## Pieces of leaves, brackets and marks -/

/-- The kind of token that a text is on its own. -/
def Piece.kindOf (text : String) : TokenKind :=
  match text.toList with
  | [] => .word
  | c :: cs =>
      match (Lexeme.read c cs).outcome with
      | .ok (kind, _) => kind
      | .error _ => .word

/-- A token on its own has the kind its text is read as. -/
theorem Piece.Whole.kindOf_eq {p : Piece} (h : p.Whole) : Piece.kindOf p.text = p.kind := by
  obtain ⟨c, cs, htext, hread⟩ := h
  have hr := hread [] (Piece.clearOf_nil p)
  rw [List.append_nil] at hr
  simp only [Piece.kindOf, htext, hr, Lexeme.spelling]

/-- The token of a leaf; the kind of an atom is read off its text. -/
def LeafKind.piece (text : String) : LeafKind → Piece
  | .space => ⟨.whitespace, text⟩
  | .newline => ⟨.newline, text⟩
  | .comma => ⟨.comma, text⟩
  | .comment => ⟨.comment, text⟩
  | .atom => ⟨Piece.kindOf text, text⟩

/-- The token that opens a bracket. -/
def Bracket.piece (b : Bracket) : Piece :=
  match b with
  | .vector => ⟨.openVector, b.opening⟩
  | .map => ⟨.openMap, b.opening⟩
  | .set => ⟨.openSet, b.opening⟩
  | _ => ⟨.openList, b.opening⟩

/-- The token that closes a bracket. -/
def Bracket.closer (b : Bracket) : Piece := ⟨.close, b.closing⟩

/-- The token of a mark. -/
def Mark.piece : Mark → Piece
  | .quote => ⟨.quote, "'"⟩
  | .syntaxQuote => ⟨.syntaxQuote, "\x60"⟩
  | .unquote => ⟨.unquote, "~"⟩
  | .unquoteSplicing => ⟨.unquoteSplicing, "~@"⟩
  | .varQuote => ⟨.varQuote, "#'"⟩
  | .deref => ⟨.deref, "@"⟩
  | .fnLiteral => ⟨.openFn, "#"⟩
  | .discard => ⟨.discard, "#_"⟩
  | .conditional splicing => ⟨.openConditional, (Mark.conditional splicing).spelling⟩
  | .tagged tag => ⟨.tag, "#" ++ tag⟩
  | .namespaced ns => ⟨.namespacedMap, "#" ++ ns⟩

/-- The tokens of a mark; a tag is set off by a space. -/
def Mark.pieces (m : Mark) : List Piece :=
  match m with
  | .tagged _ => [m.piece, ⟨.whitespace, " "⟩]
  | _ => [m.piece]

/-- The mark is one token with the bracket of the list behind it. -/
def Mark.fuses : Mark → Bool
  | .fnLiteral => true
  | .conditional _ => true
  | _ => false

/-- A mark in front of tokens: a token of its own, or part of the first of them. -/
def Mark.join (m : Mark) : List Piece → List Piece
  | [] => m.pieces
  | p :: ps => if m.fuses then ⟨m.piece.kind, m.spelling ++ p.text⟩ :: ps else m.pieces ++ p :: ps

/-! ## Pieces of nodes -/

mutual

/-- The tokens of a node, from left to right. -/
def Node.pieces : Node → List Piece
  | .leaf kind text => [kind.piece text]
  | .branch b cs =>
      if b.isCollection then b.piece :: (Node.piecesAll cs ++ [b.closer]) else Node.piecesAll cs
  | .wrap m n => m.join n.pieces
  | .annotated m t => ⟨.metadata, "^"⟩ :: (m.pieces ++ ⟨.whitespace, " "⟩ :: t.pieces)
  | .unknown => []

/-- The tokens of nodes in a row. -/
def Node.piecesAll : List Node → List Piece
  | [] => []
  | n :: ns => n.pieces ++ Node.piecesAll ns

end

/-- A mark that does not fuse stands in front as it is. -/
theorem Mark.join_of_not_fuses {m : Mark} (h : m.fuses = false) (ps : List Piece) :
    m.join ps = m.pieces ++ ps := by
  cases ps <;> simp [Mark.join, h]

/-- The tokens of a mark spell it. -/
theorem Mark.chars_pieces (m : Mark) : Piece.chars m.pieces = m.spelling.toList := by
  cases m <;> simp [Mark.pieces, Mark.piece, Mark.spelling, String.toList_append]

/-- So they do when the mark fuses with what is behind it. -/
theorem Mark.chars_join (m : Mark) (ps : List Piece) :
    Piece.chars (m.join ps) = m.spelling.toList ++ Piece.chars ps := by
  cases ps with
  | nil => simp [Mark.join, Mark.chars_pieces]
  | cons p ps =>
    by_cases h : m.fuses = true
    · simp [Mark.join, h, String.toList_append]
    · simp [Mark.join, h, Mark.chars_pieces]

namespace Node

theorem piecesAll_append (xs ys : List Node) :
    piecesAll (xs ++ ys) = piecesAll xs ++ piecesAll ys := by
  induction xs with
  | nil => rfl
  | cons n ns ih => simp [piecesAll, ih]

theorem textAll_append (xs ys : List Node) : textAll (xs ++ ys) = textAll xs ++ textAll ys := by
  induction xs with
  | nil => simp [textAll]
  | cons n ns ih => simp [textAll, ih, String.append_assoc]

/-- A collection is spelled with its brackets around its children. -/
theorem pieces_branch {b : Bracket} (h : b.isCollection = true) (cs : List Node) :
    (branch b cs).pieces = b.piece :: (piecesAll cs ++ [b.closer]) := by
  simp [pieces, h]

/-- A mark that fuses is one token with the bracket of its list. -/
theorem pieces_fused {m : Mark} (h : m.fuses = true) (cs : List Node) :
    (wrap m (.list cs)).pieces =
      ⟨m.piece.kind, m.spelling ++ "("⟩ :: (piecesAll cs ++ [Bracket.list.closer]) := by
  rw [pieces, pieces_branch rfl, Mark.join, if_pos h]
  rfl

mutual

/-- The tokens of a node spell its text. -/
theorem chars_pieces : (n : Node) → Piece.chars n.pieces = n.text.toList
  | .leaf kind text => by cases kind <;> simp [pieces, LeafKind.piece, Node.text]
  | .branch b cs => by
      have ih := chars_piecesAll cs
      cases b <;> simp [pieces, Bracket.isCollection, Bracket.piece, Bracket.closer, Node.text, ih,
        String.toList_append, Bracket.opening, Bracket.closing]
  | .wrap m n => by
      simp [pieces, Mark.chars_join, Node.text, chars_pieces n, String.toList_append]
  | .annotated m t => by
      simp [pieces, Node.text, chars_pieces m, chars_pieces t, String.toList_append]
  | .unknown => rfl

/-- The tokens of nodes in a row spell their text. -/
theorem chars_piecesAll : (ns : List Node) → Piece.chars (piecesAll ns) = (textAll ns).toList
  | [] => rfl
  | n :: ns => by
      simp [piecesAll, textAll, chars_pieces n, chars_piecesAll ns, String.toList_append]

end

/-! ## Sound nodes -/

/-- The node is a form: no trivia and no comment. -/
def isForm (n : Node) : Bool := !n.isNoise && !n.isComment

end Node

/-- The node is as reading builds it. -/
inductive Node.Sound : Node → Prop
  | leaf {kind : LeafKind} {text : String} (whole : (kind.piece text).Whole)
      (atom : kind = .atom → (Piece.kindOf text).isAtom = true) : Sound (.leaf kind text)
  | branch {b : Bracket} {cs : List Node} (bracket : b.isCollection = true)
      (children : ∀ c ∈ cs, Sound c) : Sound (.branch b cs)
  | fused {m : Mark} {cs : List Node} (fuses : m.fuses = true) (children : ∀ c ∈ cs, Sound c) :
      Sound (.wrap m (.list cs))
  | wrap {m : Mark} {n : Node} (plain : m.fuses = false) (mark : m.piece.Whole)
      (accepts : Reading.accepts m n = true) (form : n.isForm = true) (child : Sound n) :
      Sound (.wrap m n)
  | annotated {m t : Node} (formData : m.isForm = true) (formTarget : t.isForm = true)
      (metadata : Sound m) (target : Sound t) : Sound (.annotated m t)

end CljTidy
