/-
  The tree that a text is read as.

  1. **Reader** — `parse`: the nodes of a text.  A comment between a mark and its form is lifted
     over the mark, through every mark around it.

  2. **Specification** — said of the leaves of the tree alone: the atoms are the tokens that are a
     form on their own, one by one in the order of the text; the comments are those of the text, in
     any order; marks and metadata stand in front of forms; what a function literal or a reader
     conditional wraps is a list, and a map follows a map namespace.

  3. **The crux** (`Leaf.Shows.pieces`) — reading is known to keep the pieces of a text
     (`content_of_parse`).  A view of leaves and a set of kinds of tokens that agree on every leaf
     agree on every sound tree, since brackets and marks are neither atoms nor comments.
-/
import CljTidy.Proofs.Node.Lacks
import CljTidy.Proofs.Node.Leaves
import CljTidy.Proofs.Reading.Content
import Mathlib.Data.List.Basic

namespace CljTidy

variable {keeps : TokenKind → Bool}

/-! ## Pieces of some kinds -/

namespace Piece

/-- The spellings of the pieces of some kinds. -/
def texts (keeps : TokenKind → Bool) (ps : List Piece) : List String :=
  (ps.filter fun p => keeps p.kind).map text

@[simp] theorem texts_nil : texts keeps [] = [] := rfl

/-- A piece of a kind that is kept is seen. -/
theorem texts_cons_of_pos {p : Piece} (h : keeps p.kind = true) (ps : List Piece) :
    texts keeps (p :: ps) = p.text :: texts keeps ps := by
  simp [texts, h]

theorem texts_cons_of_neg {p : Piece} (h : keeps p.kind = false) (ps : List Piece) :
    texts keeps (p :: ps) = texts keeps ps := by
  simp [texts, h]

@[simp] theorem texts_append (ps qs : List Piece) :
    texts keeps (ps ++ qs) = texts keeps ps ++ texts keeps qs := by
  simp [texts]

theorem texts_cons (p : Piece) (ps : List Piece) :
    texts keeps (p :: ps) = texts keeps [p] ++ texts keeps ps := by
  rw [← texts_append, List.singleton_append]

/-- Trivia and comments left out, the pieces of a kind of code are still there. -/
theorem texts_code (h : ∀ kind, keeps kind = true → kind.isCode = true) (ps : List Piece) :
    texts keeps (code ps) = texts keeps ps := by
  have hboth : ∀ p : Piece, (keeps p.kind && p.kind.isCode) = keeps p.kind := by
    intro p
    cases hp : keeps p.kind with
    | false => rfl
    | true => rw [h p.kind hp]; rfl
  rw [texts, code, List.filter_filter, texts]
  simp only [hboth]

/-- The spelling of metadata is that of no other kind of token. -/
theorem texts_caret (h : keeps .metadata = false) (ps : List Piece) :
    texts keeps (ps.map caret) = texts keeps ps := by
  induction ps with
  | nil => rfl
  | cons p ps ih =>
    by_cases hp : p = ⟨.metadata, "#^"⟩
    · subst hp
      rw [List.map_cons, texts_cons_of_neg h, texts_cons_of_neg h, ih]
    · have hcaret : p.caret = p := if_neg hp
      rw [List.map_cons, texts_cons, hcaret, ih, ← texts_cons]

/-- The values of tokens are read off what they say. -/
theorem values_of_said (keeps : TokenKind → Bool) (tokens : List Token) :
    (tokens.filter fun t => keeps t.kind).map Token.value =
      ((tokens.map Token.said).filter fun s => keeps s.1).map Prod.snd := by
  rw [List.filter_map, List.map_map]
  rfl

/-- Tokens have the values that their pieces spell. -/
theorem texts_of_said (keeps : TokenKind → Bool) (h : keeps .endOfText = false)
    {tokens : List Token} {ps : List Piece}
    (hsaid : tokens.map Token.said = ps.map said ++ [(.endOfText, none)]) :
    (tokens.filter fun t => keeps t.kind).map Token.value = (texts keeps ps).map some := by
  have hend : keeps (Prod.fst ((.endOfText, none) : TokenKind × Option String)) = false := h
  calc (tokens.filter fun t => keeps t.kind).map Token.value
      = ((tokens.map Token.said).filter fun s => keeps s.1).map Prod.snd := values_of_said keeps _
    _ = ((ps.map said).filter fun s => keeps s.1).map Prod.snd := by
        rw [hsaid, List.filter_append, List.filter_cons_of_neg (by simp [hend]), List.filter_nil,
          List.append_nil]
    _ = (texts keeps ps).map some := by
        rw [List.filter_map, List.map_map, texts, List.map_map]; rfl

end Piece

/-! ## Leaves of some kinds -/

namespace Leaf

/-- The text of a leaf that is an atom. -/
def atom? : Leaf → Option String
  | node .atom text => some text
  | _ => none

/-- The view shows the leaves whose tokens are of the kinds kept, and no brackets or marks. -/
structure Shows (keeps : TokenKind → Bool) (view : Leaf → Option String) : Prop where
  sign : ∀ text, view (.sign text) = none
  only : ∀ kind, keeps kind = true → kind.isAtom = true ∨ kind = .comment
  leaf : ∀ kind text, (kind = .atom → (Piece.kindOf text).isAtom = true) →
    Piece.texts keeps [kind.piece text] = (view (.node kind text)).toList

/-- Atoms are shown by the kinds of tokens that are forms on their own. -/
theorem shows_atom : Shows TokenKind.isAtom atom? where
  sign _ := rfl
  only _ h := .inl h
  leaf kind text hatom := by
    cases kind with
    | atom => exact Piece.texts_cons_of_pos (hatom rfl) []
    | _ => rfl

theorem shows_comment : Shows (· == .comment) comment? where
  sign _ := rfl
  only _ h := .inr (beq_iff_eq.mp h)
  leaf kind text hatom := by
    cases kind with
    | atom =>
      have hkind : (Piece.kindOf text == .comment) = false := by
        refine beq_eq_false_iff_ne.mpr fun hcomment => ?_
        have hkeep := hatom rfl
        rw [hcomment] at hkeep
        cases hkeep
      exact Piece.texts_cons_of_neg hkind []
    | _ => rfl

/-- A view of each of some nodes is a view of the nodes in a row. -/
theorem texts_piecesAll {view : Leaf → Option String} {ns : List Node}
    (h : ∀ n ∈ ns, Piece.texts keeps n.pieces = n.leaves.filterMap view) :
    Piece.texts keeps (Node.piecesAll ns) = (Node.leavesAll ns).filterMap view := by
  induction ns with
  | nil => rfl
  | cons n ns ih =>
    obtain ⟨hn, hns⟩ := List.forall_mem_cons.mp h
    rw [Node.piecesAll, Node.leavesAll, Piece.texts_append, List.filterMap_append, hn, ih hns]

namespace Shows

variable {view : Leaf → Option String}

/-- A token that is neither an atom nor a comment is not kept. -/
theorem drops (h : Shows keeps view) {kind : TokenKind} (hatom : kind.isAtom = false)
    (hcomment : kind ≠ .comment) : keeps kind = false := by
  rw [← Bool.not_eq_true]
  intro hkeeps
  rcases h.only kind hkeeps with hkind | hkind
  · rw [hatom] at hkind; cases hkind
  · exact hcomment hkind

/-- Brackets are not kept. -/
theorem drops_bracket (h : Shows keeps view) (b : Bracket) :
    keeps b.piece.kind = false ∧ keeps b.closer.kind = false := by
  cases b <;> exact ⟨h.drops rfl (by rintro ⟨⟩), h.drops rfl (by rintro ⟨⟩)⟩

/-- Marks are not kept. -/
theorem drops_mark (h : Shows keeps view) (m : Mark) : keeps m.piece.kind = false := by
  cases m <;> exact h.drops rfl (by rintro ⟨⟩)

/-- No token of a mark is kept. -/
theorem texts_mark (h : Shows keeps view) (m : Mark) : Piece.texts keeps m.pieces = [] := by
  have hspace : keeps .whitespace = false := h.drops rfl (by rintro ⟨⟩)
  cases m with
  | tagged tag =>
    exact (Piece.texts_cons_of_neg (h.drops_mark _) _).trans (Piece.texts_cons_of_neg hspace [])
  | _ => exact Piece.texts_cons_of_neg (h.drops_mark _) []

theorem view_sign (h : Shows keeps view) (text : String) (leaves : List Leaf) :
    (Leaf.sign text :: leaves).filterMap view = leaves.filterMap view :=
  List.filterMap_cons_none (h.sign text)

/-- **A view shows a sound tree as its tokens spell it.**  Induction on how the tree was built. -/
theorem pieces (h : Shows keeps view) {n : Node} (hn : n.Sound) :
    Piece.texts keeps n.pieces = n.leaves.filterMap view := by
  induction hn with
  | @leaf kind text _ hatom =>
    have hleaf := h.leaf kind text hatom
    rw [Node.pieces, Node.leaves, hleaf]
    cases hview : view (.node kind text) with
    | none => rw [List.filterMap_cons_none hview]; rfl
    | some shown => rw [List.filterMap_cons_some hview]; rfl
  | @branch b cs hb _ ih =>
    obtain ⟨hopen, hclose⟩ := h.drops_bracket b
    rw [Node.pieces_branch hb, Piece.texts_cons_of_neg hopen, Piece.texts_append,
      Piece.texts_cons_of_neg hclose, Node.leaves_branch hb, h.view_sign, List.filterMap_append,
      h.view_sign, texts_piecesAll ih, Piece.texts_nil, List.filterMap_nil]
  | @fused m cs hm _ ih =>
    obtain ⟨-, hclose⟩ := h.drops_bracket .list
    have hopen : keeps (⟨m.piece.kind, m.spelling ++ "("⟩ : Piece).kind = false := h.drops_mark m
    rw [Node.pieces_fused hm, Piece.texts_cons_of_neg hopen, Piece.texts_append,
      Piece.texts_cons_of_neg hclose, Node.leaves, h.view_sign, Node.leaves_branch rfl, h.view_sign,
      List.filterMap_append, h.view_sign, texts_piecesAll ih, Piece.texts_nil, List.filterMap_nil]
  | @wrap m n hm _ _ _ _ ih =>
    rw [Node.pieces, Mark.join_of_not_fuses hm, Piece.texts_append, h.texts_mark, List.nil_append,
      ih, Node.leaves, h.view_sign]
  | @annotated m t _ _ _ _ ihm iht =>
    have hcaret : keeps .metadata = false := h.drops rfl (by rintro ⟨⟩)
    have hspace : keeps .whitespace = false := h.drops rfl (by rintro ⟨⟩)
    rw [Node.pieces, Piece.texts_cons_of_neg hcaret, Piece.texts_append,
      Piece.texts_cons_of_neg hspace, ihm, iht, Node.leaves, h.view_sign, List.filterMap_append,
      h.view_sign]

end Shows

end Leaf

/-! ## Trees -/

namespace Node

/-- The texts of the atoms anywhere in a node, from left to right. -/
def atomTexts (n : Node) : List String := n.leaves.filterMap Leaf.atom?

/-- A function literal or a reader conditional over something else than a list, or a map namespace
    over something else than a map. -/
def mismatched : Node → Bool
  | .wrap .fnLiteral child => !child.isList
  | .wrap (.conditional _) child => !child.isList
  | .wrap (.namespaced _) child => !child.isMap
  | _ => false

/-- In a sound node, marks stand in front of what they are made for. -/
theorem Sound.matched {n : Node} (h : n.Sound) : n.lacks mismatched = true := by
  induction h with
  | leaf => rfl
  | branch _ _ ih => exact lacks_branch.mpr ⟨rfl, ih⟩
  | @fused m _ hm _ ih =>
    have hlist : ∀ cs, (Node.wrap m (.list cs)).mismatched = false := by
      intro cs
      cases m <;> first | rfl | cases hm
    exact lacks_wrap.mpr ⟨hlist _, lacks_branch.mpr ⟨rfl, ih⟩⟩
  | @wrap m n hm _ haccepts _ _ ih =>
    have hfits : (Node.wrap m n).mismatched = false := by
      cases m with
      | fnLiteral => cases hm
      | conditional => cases hm
      | namespaced =>
        have hmap : n.isMap = true := haccepts
        simp [mismatched, hmap]
      | _ => rfl
    exact lacks_wrap.mpr ⟨hfits, ih⟩
  | annotated _ _ _ _ ihm iht => exact lacks_annotated.mpr ⟨rfl, ihm, iht⟩

end Node

/-- The atoms of a tree that was read are the tokens that are a form on their own, in order. -/
theorem atomTexts_of_parse {text : String} {tokens : List Token} {nodes : List Node}
    (htokens : tokenize text = .ok tokens) (hparse : parse text = .ok nodes) :
    (Node.document nodes).atomTexts.map some =
      (tokens.filter fun t => t.kind.isAtom).map Token.value := by
  obtain ⟨hsound, ps, hsaid, hcode, -⟩ := content_of_parse htokens hparse
  have hiscode : ∀ kind : TokenKind, kind.isAtom = true → kind.isCode = true := by
    intro kind h
    cases kind <;> first | rfl | cases h
  have hatoms : (Node.document nodes).atomTexts = Piece.texts TokenKind.isAtom ps := by
    calc (Node.document nodes).atomTexts
        = Piece.texts TokenKind.isAtom (Node.piecesAll nodes) :=
          (Leaf.texts_piecesAll fun n hn => Leaf.shows_atom.pieces (hsound n hn)).symm
      _ = Piece.texts TokenKind.isAtom (Node.codeAll nodes) := (Piece.texts_code hiscode _).symm
      _ = Piece.texts TokenKind.isAtom (Piece.code ps) := by rw [hcode, Piece.texts_caret rfl]
      _ = Piece.texts TokenKind.isAtom ps := Piece.texts_code hiscode ps
  rw [hatoms, Piece.texts_of_said TokenKind.isAtom rfl hsaid]

/-- **Reading keeps every atom and every comment, and builds well-shaped trees only.**  The atoms
    are in the order of the text; a comment may be lifted over the marks in front of it. -/
theorem parse_content {text : String} {nodes : List Node} (hparse : parse text = .ok nodes) :
    ∃ tokens, tokenize text = .ok tokens ∧
      (Node.document nodes).atomTexts.map some =
        (tokens.filter fun t => t.kind.isAtom).map Token.value ∧
      ((Node.document nodes).commentTexts.map some).Perm
        ((tokens.filter fun t => t.kind == .comment).map Token.value) ∧
      (Node.document nodes).wellShaped = true ∧
      (Node.document nodes).lacks Node.mismatched = true := by
  obtain ⟨tokens, htokens⟩ := tokenize_of_parse hparse
  obtain ⟨hsound, ps, hsaid, -, hcomments⟩ := content_of_parse htokens hparse
  have hlifted : (Node.document nodes).commentTexts.Perm (Piece.comments ps) := by
    have hshown : (Node.document nodes).commentTexts = Node.commentsAll nodes :=
      (Leaf.texts_piecesAll fun n hn => Leaf.shows_comment.pieces (hsound n hn)).symm
    rw [hshown]
    exact hcomments
  refine ⟨tokens, htokens, atomTexts_of_parse htokens hparse, ?comments, ?shaped, ?matched⟩
  case comments =>
    rw [Piece.texts_of_said (· == .comment) rfl hsaid]
    exact hlifted.map some
  case shaped => exact Node.allLack_iff.mpr fun n hn => shape_of_sound (hsound n hn)
  case matched => exact Node.lacks_branch.mpr ⟨rfl, fun n hn => (hsound n hn).matched⟩

/-- Comments behind a map namespace, in front of metadata and under two marks, and a list behind a
    mark of each kind. -/
theorem parse_content_lifted :
    ∃ nodes, parse "#:n ;a\n\x7b:k #?@(x)\x7d ^;b\n:m #_ ;c\n#(\"s\")" = .ok nodes ∧
      ∃ tokens, tokenize "#:n ;a\n\x7b:k #?@(x)\x7d ^;b\n:m #_ ;c\n#(\"s\")" = .ok tokens ∧
        (Node.document nodes).atomTexts.map some =
          (tokens.filter fun t => t.kind.isAtom).map Token.value ∧
        ((Node.document nodes).commentTexts.map some).Perm
          ((tokens.filter fun t => t.kind == .comment).map Token.value) ∧
        (Node.document nodes).wellShaped = true ∧
        (Node.document nodes).lacks Node.mismatched = true := by
  have hparse : parse "#:n ;a\n\x7b:k #?@(x)\x7d ^;b\n:m #_ ;c\n#(\"s\")" =
      .ok [.comment ";a", .newline "\n",
        .wrap (.namespaced ":n") (.map [.atom ":k", .space " ",
          .wrap (.conditional true) (.list [.atom "x"])]),
        .space " ", .comment ";b", .newline "\n", .comment ";c", .newline "\n",
        .annotated (.atom ":m") (.discard (.wrap .fnLiteral (.list [.atom "\"s\""])))] := by cbv
  exact ⟨_, hparse, parse_content hparse⟩

end CljTidy
