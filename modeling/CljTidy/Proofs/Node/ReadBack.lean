/-
  What comes back from the text of a tree.

  A mark is written right in front of its form, and only in one case do the two run together: an
  unquote over a dereference is read as one mark.  The tree that comes back is the tree with its
  marks put over their forms in this way (`readBack`).  It has the same text (`text_readBack`), it
  is as sound as the tree (`Sound.readBack`), and it is the tree itself exactly if nothing runs
  together (`readBack_eq_self`).
-/
import CljTidy.Proofs.Node.Lacks
import CljTidy.Proofs.Node.Stand

namespace CljTidy.Node

/-! ## The tree that comes back -/

mutual

/-- The node with its marks as they are read when it is written. -/
def readBack : Node → Node
  | .branch b cs => .branch b (readBackAll cs)
  | .wrap m n => m.over n.readBack
  | .annotated m t => .annotated m.readBack t.readBack
  | n => n

/-- Each node with its marks as they are read. -/
def readBackAll : List Node → List Node
  | [] => []
  | n :: ns => n.readBack :: readBackAll ns

end

theorem readBackAll_eq (ns : List Node) : readBackAll ns = ns.map readBack := by
  induction ns with
  | nil => rfl
  | cons n ns ih => rw [readBackAll, ih, List.map_cons]

/-- The children of a branch come back one by one. -/
theorem readBack_branch (b : Bracket) (cs : List Node) :
    (branch b cs).readBack = .branch b (cs.map readBack) := by
  rw [readBack, readBackAll_eq]

/-- From outside, what comes back looks the same. -/
theorem face_readBack (n : Node) : n.readBack.face = n.face := by
  induction n using Node.induction with
  | leaf kind text => rfl
  | branch b cs => rfl
  | wrap m n ih => rw [readBack, face_over, ih, face_wrap]
  | annotated m t => rfl
  | unknown => rfl

theorem isForm_readBack (n : Node) : n.readBack.isForm = n.isForm := isForm_of_face (face_readBack n)

/-- A change that keeps the text of each node keeps the text of all. -/
theorem textAll_map {f : Node → Node} {cs : List Node} (h : ∀ c ∈ cs, (f c).text = c.text) :
    textAll (cs.map f) = textAll cs := by
  induction cs with
  | nil => rfl
  | cons c cs ih =>
    obtain ⟨hc, hrest⟩ := List.forall_mem_cons.mp h
    rw [List.map_cons, textAll, hc, ih hrest, textAll]

/-- The text is the same. -/
theorem text_readBack (n : Node) : n.readBack.text = n.text := by
  induction n using Node.induction with
  | leaf kind text => rfl
  | branch b cs ih => rw [readBack_branch, text, textAll_map ih, text]
  | wrap m n ih => rw [readBack, text_over, ih, text]
  | annotated m t ihm iht => rw [readBack, text, ihm, iht, text]
  | unknown => rfl

/-- So is the text of nodes in a row. -/
theorem textAll_readBack (cs : List Node) : textAll (cs.map readBack) = textAll cs :=
  textAll_map fun c _ => text_readBack c

/-- Nothing runs together in a tree that came back, and it is as sound as the tree. -/
theorem Sound.readBack {n : Node} (h : n.Sound) :
    n.readBack.Sound ∧ n.readBack.lacks unquotesDeref = true := by
  have hall : ∀ {cs : List Node},
      (∀ c ∈ cs, c.readBack.Sound ∧ c.readBack.lacks unquotesDeref = true) →
      ∀ c ∈ cs.map Node.readBack, c.Sound ∧ c.lacks unquotesDeref = true := by
    intro cs hcs c hc
    obtain ⟨d, hd, rfl⟩ := List.mem_map.mp hc
    exact hcs d hd
  induction h with
  | leaf whole atom => exact ⟨.leaf whole atom, rfl⟩
  | branch hb _ ih =>
    rw [readBack_branch]
    exact ⟨.branch hb fun c hc => (hall ih c hc).1,
      lacks_branch.mpr ⟨rfl, fun c hc => (hall ih c hc).2⟩⟩
  | @fused m cs hm _ ih =>
    have hkind : unquotesDeref (.wrap m (.list (cs.map Node.readBack))) = false := by
      cases m <;> rfl
    rw [Node.readBack, readBack_branch, over_branch]
    exact ⟨.fused hm fun c hc => (hall ih c hc).1,
      lacks_wrap.mpr ⟨hkind, lacks_branch.mpr ⟨rfl, fun c hc => (hall ih c hc).2⟩⟩⟩
  | @wrap m n hm mark haccepts hform _ ih =>
    exact sound_over hm mark ((accepts_of_face (face_readBack n)).trans haccepts)
      ((isForm_readBack n).trans hform) ih.1 ih.2
  | annotated hm ht _ _ ihm iht =>
    exact ⟨.annotated ((isForm_readBack _).trans hm) ((isForm_readBack _).trans ht) ihm.1 iht.1,
      lacks_annotated.mpr ⟨rfl, ihm.2, iht.2⟩⟩

/-- What does not run together comes back as it is. -/
theorem readBack_of_lacks {n : Node} (h : n.lacks unquotesDeref = true) : n.readBack = n := by
  induction n using Node.induction with
  | leaf kind text => rfl
  | branch b cs ih =>
    have hcs := (lacks_branch.mp h).2
    rw [readBack_branch, List.map_congr_left fun c hc => ih c hc (hcs c hc), List.map_id']
  | wrap m n ih =>
    obtain ⟨hkind, hn⟩ := lacks_wrap.mp h
    rw [readBack, ih hn]
    rcases over_cases m n with ⟨rfl, x, rfl, -⟩ | ⟨hover, -⟩
    · cases hkind
    · exact hover
  | annotated m t ihm iht =>
    obtain ⟨-, hm, ht⟩ := lacks_annotated.mp h
    rw [readBack, ihm hm, iht ht]
  | unknown => rfl

/-- **Exactly the marks that run together are lost.** -/
theorem Sound.readBack_eq_self {n : Node} (h : n.Sound) :
    n.readBack = n ↔ n.lacks unquotesDeref = true := by
  constructor
  · intro hsame
    rw [← hsame]
    exact h.readBack.2
  · exact readBack_of_lacks

/-! ## Tokens -/

/-- The tokens of nodes in a row, as they come back. -/
def piecesBack (ns : List Node) : List Piece := piecesAll (ns.map readBack)

/-- Nodes behind each other come back behind each other. -/
theorem piecesBack_append (xs ys : List Node) :
    piecesBack (xs ++ ys) = piecesBack xs ++ piecesBack ys := by
  rw [piecesBack, List.map_append, piecesAll_append]
  rfl

theorem piecesBack_singleton (n : Node) : piecesBack [n] = n.readBack.pieces :=
  List.append_nil _

/-- The tokens that come back spell the text that was written. -/
theorem chars_piecesBack (ns : List Node) : Piece.chars (piecesBack ns) = (textAll ns).toList := by
  rw [piecesBack, chars_piecesAll, textAll_readBack]

/-- A mark is cut in front of its form, as it comes back. -/
theorem cuts_readBack_wrap {m : Mark} {n : Node} (h : (wrap m n).Sound) (hm : m.fuses = false)
    {rest : List Char} (hn : Piece.Cuts rest n.readBack.pieces) :
    Piece.Cuts rest (wrap m n).readBack.pieces := by
  have hsound := h.readBack.1
  rw [readBack] at hsound ⊢
  rcases over_cases m n.readBack with ⟨-, x, hx, hover⟩ | ⟨hover, hkind⟩
  · -- What stands behind the dereference stands behind the mark that both are read as.
    rw [hover] at hsound ⊢
    rw [hx, pieces, Mark.join_of_not_fuses rfl] at hn
    exact cuts_wrap hsound rfl (by rintro ⟨⟩) (Piece.cuts_append.mp hn).2
  · rw [hover] at hsound ⊢
    refine cuts_wrap hsound hm (fun hunquote x hx => ?_) hn
    rw [hunquote, hx] at hkind
    cases hkind

/-! ## The last token -/

/-- The last token of a node is no unquote; that of a form closes a bracket or is an atom. -/
theorem Sound.last {n : Node} (h : n.Sound) :
    ∃ p, n.pieces.getLast? = some p ∧ p.kind ≠ .unquote ∧
      (n.isForm = true → p.kind = .close ∨ p.kind.isAtom = true) := by
  induction h with
  | @leaf kind text whole atom =>
    refine ⟨kind.piece text, rfl, ?_⟩
    cases kind with
    | atom =>
      have hatom : (LeafKind.atom.piece text).kind.isAtom = true := atom rfl
      refine ⟨fun hk => ?_, fun _ => .inr hatom⟩
      rw [hk] at hatom
      cases hatom
    | _ => exact ⟨by rintro ⟨⟩, by rintro ⟨⟩⟩
  | @branch b cs hb =>
    rw [pieces_branch hb, ← List.cons_append]
    exact ⟨b.closer, List.getLast?_concat, by rintro ⟨⟩, fun _ => .inl rfl⟩
  | @fused m cs hm =>
    rw [pieces_fused hm, ← List.cons_append]
    exact ⟨Bracket.list.closer, List.getLast?_concat, by rintro ⟨⟩, fun _ => .inl rfl⟩
  | @wrap m n hm _ _ hform _ ih =>
    obtain ⟨p, hlast, hkind, hend⟩ := ih
    rw [pieces, Mark.join_of_not_fuses hm]
    exact ⟨p, by rw [List.getLast?_append, hlast]; rfl, hkind, fun _ => hend hform⟩
  | @annotated m t _ hform _ _ _ ih =>
    obtain ⟨p, hlast, hkind, hend⟩ := ih
    rw [pieces, ← List.cons_append]
    refine ⟨p, ?_, hkind, fun _ => hend hform⟩
    rw [List.getLast?_append, List.getLast?_cons, hlast]
    rfl

end CljTidy.Node
