/-
  What a tree says.

  Of the tokens of a tree, those that are neither trivia nor comments are its code, and the texts of
  the others that are comments are its comments.  Both are read off the pieces of a node, part by
  part.
-/
import CljTidy.Proofs.Node.Pieces

namespace CljTidy

/-- Tokens that are part of the program: neither trivia nor a comment nor the end of the text. -/
def TokenKind.isCode : TokenKind → Bool
  | whitespace => false
  | newline => false
  | comma => false
  | comment => false
  | endOfText => false
  | _ => true

namespace Piece

/-- The pieces that are code. -/
def code (ps : List Piece) : List Piece := ps.filter fun p => p.kind.isCode

/-- The texts of the pieces that are comments. -/
def comments (ps : List Piece) : List String :=
  (ps.filter fun p => p.kind == .comment).map Piece.text

/-- Code and comments go piece by piece. -/
@[simp] theorem code_append (ps qs : List Piece) : code (ps ++ qs) = code ps ++ code qs := by
  simp [code]

@[simp] theorem comments_append (ps qs : List Piece) :
    comments (ps ++ qs) = comments ps ++ comments qs := by
  simp [comments]

@[simp] theorem code_nil : code [] = [] := rfl

@[simp] theorem comments_nil : comments [] = [] := rfl

/-- A piece in front, for pieces of unknown kind. -/
theorem code_cons (p : Piece) (ps : List Piece) : code (p :: ps) = code [p] ++ code ps := by
  rw [← code_append, List.singleton_append]

/-- The same for comments. -/
theorem comments_cons (p : Piece) (ps : List Piece) :
    comments (p :: ps) = comments [p] ++ comments ps := by
  rw [← comments_append, List.singleton_append]

end Piece

namespace Node

/-- The code of a node. -/
def code (n : Node) : List Piece := Piece.code n.pieces

/-- The comments in a node. -/
def comments (n : Node) : List String := Piece.comments n.pieces

/-- The code of nodes in a row. -/
def codeAll (ns : List Node) : List Piece := Piece.code (piecesAll ns)

/-- The comments in nodes in a row. -/
def commentsAll (ns : List Node) : List String := Piece.comments (piecesAll ns)

@[simp] theorem codeAll_nil : codeAll [] = [] := rfl

/-- Nodes in a row: what the first says, then the others. -/
@[simp] theorem codeAll_cons (n : Node) (ns : List Node) :
    codeAll (n :: ns) = n.code ++ codeAll ns := by
  simp [codeAll, piecesAll, code]

@[simp] theorem codeAll_append (xs ys : List Node) :
    codeAll (xs ++ ys) = codeAll xs ++ codeAll ys := by
  simp [codeAll, piecesAll_append]

@[simp] theorem commentsAll_nil : commentsAll [] = [] := rfl

@[simp] theorem commentsAll_cons (n : Node) (ns : List Node) :
    commentsAll (n :: ns) = n.comments ++ commentsAll ns := by
  simp [commentsAll, piecesAll, comments]

@[simp] theorem commentsAll_append (xs ys : List Node) :
    commentsAll (xs ++ ys) = commentsAll xs ++ commentsAll ys := by
  simp [commentsAll, piecesAll_append]

/-! ## Parts -/

/-- A comment says itself, -/
theorem comments_comment (text : String) : (Node.comment text).comments = [text] := rfl

/-- and trivia says nothing. -/
theorem content_noise {n : Node} (h : n.isNoise = true) : n.code = [] ∧ n.comments = [] := by
  rcases n with ⟨_ | _ | _ | _ | _, text⟩ | _ | _ | _ | _ <;>
    first | exact ⟨rfl, rfl⟩ | cases h

/-- Brackets are code. -/
theorem code_branch {b : Bracket} (hb : b.isCollection = true) (cs : List Node) :
    (Node.branch b cs).code = b.piece :: (codeAll cs ++ [b.closer]) := by
  have hopen : b.piece.kind.isCode = true := by cases b <;> rfl
  have hclose : b.closer.kind.isCode = true := rfl
  simp [code, codeAll, pieces_branch hb, Piece.code, hopen, hclose]

/-- The comments of a collection are those of its children. -/
theorem comments_branch {b : Bracket} (hb : b.isCollection = true) (cs : List Node) :
    (Node.branch b cs).comments = commentsAll cs := by
  have hopen : (b.piece.kind == .comment) = false := by cases b <;> rfl
  have hclose : (b.closer.kind == .comment) = false := rfl
  simp [comments, commentsAll, pieces_branch hb, Piece.comments, hopen, hclose]

/-- The token of a mark and the bracket of its list. -/
theorem code_fused {m : Mark} (hm : m.fuses = true) (cs : List Node) :
    (Node.wrap m (.list cs)).code =
      ⟨m.piece.kind, m.spelling ++ "("⟩ :: (codeAll cs ++ [Bracket.list.closer]) := by
  have hopen : m.piece.kind.isCode = true := by cases m <;> rfl
  have hclose : Bracket.list.closer.kind.isCode = true := rfl
  simp [code, pieces_fused hm, codeAll, Piece.code, hopen, hclose]

/-- The same comments as without the mark. -/
theorem comments_fused {m : Mark} (hm : m.fuses = true) (cs : List Node) :
    (Node.wrap m (.list cs)).comments = commentsAll cs := by
  have hopen : (m.piece.kind == .comment) = false := by cases m <;> rfl
  have hclose : (Bracket.list.closer.kind == .comment) = false := rfl
  simp [comments, pieces_fused hm, commentsAll, Piece.comments, hopen, hclose]

/-- A mark with a token of its own is code in front of its form, -/
theorem code_wrap {m : Mark} (hm : m.fuses = false) (n : Node) :
    (Node.wrap m n).code = m.piece :: n.code := by
  have hmark : Piece.code m.pieces = [m.piece] := by cases m <;> rfl
  simp [code, pieces, Mark.join_of_not_fuses hm, hmark]

/-- and no comment. -/
theorem comments_wrap {m : Mark} (hm : m.fuses = false) (n : Node) :
    (Node.wrap m n).comments = n.comments := by
  have hmark : Piece.comments m.pieces = [] := by cases m <;> rfl
  simp [comments, pieces, Mark.join_of_not_fuses hm, hmark]

/-- The space between metadata and its target is not code, -/
theorem code_annotated (m t : Node) :
    (Node.annotated m t).code = ⟨.metadata, "^"⟩ :: (m.code ++ t.code) := by
  have hcaret : Piece.code [⟨.metadata, "^"⟩] = [⟨.metadata, "^"⟩] := rfl
  have hspace : Piece.code [⟨.whitespace, " "⟩] = [] := rfl
  rw [code, pieces, Piece.code_cons, hcaret, Piece.code_append, Piece.code_cons ⟨.whitespace, " "⟩,
    hspace]
  rfl

/-- nor are the caret and the space comments. -/
theorem comments_annotated (m t : Node) :
    (Node.annotated m t).comments = m.comments ++ t.comments := by
  have hcaret : Piece.comments [⟨.metadata, "^"⟩] = [] := rfl
  have hspace : Piece.comments [⟨.whitespace, " "⟩] = [] := rfl
  rw [comments, pieces, Piece.comments_cons, hcaret, Piece.comments_append,
    Piece.comments_cons ⟨.whitespace, " "⟩, hspace]
  rfl

end Node

end CljTidy
