/-
  Laying out keeps the content of a tree.

  The code of a list of nodes is the code of the forms among them, and its comments are those among
  the nodes and those inside the forms.  Grouping keeps both, a page accounts for both, and writing
  a script adds nothing to either.  So a collection keeps its content if its elements do
  (`code_script`, `tidyComments_script`), and by induction every form does (`keeps_lay`): the code
  as it is, unless discards are stacked, and the comments in their tidy form, in some order, those
  that leave included.
-/
import CljTidy.Proofs.Layout.Code
import CljTidy.Proofs.Layout.Readable
import CljTidy.Proofs.Node.Content

namespace CljTidy

/-! ## Nodes in a row -/

namespace Node

/-- The code of nodes is that of the forms among them. -/
theorem codeAll_forms (cs : List Node) : codeAll cs = (cs.filter isForm).flatMap code := by
  induction cs with
  | nil => rfl
  | cons c cs ih =>
    rw [codeAll_cons, ih, List.filter_cons]
    cases hform : c.isForm with
    | true => simp
    | false =>
      have hcode : c.code = [] := by
        rcases c with ⟨_ | _ | _ | _ | _, text⟩ | _ | _ | _ | _ <;> first | rfl | cases hform
      simp [hcode]

/-- The comments of nodes are those of each node, one after the other. -/
theorem commentsAll_eq (cs : List Node) : commentsAll cs = cs.flatMap comments := by
  induction cs with
  | nil => rfl
  | cons c cs ih => rw [commentsAll_cons, ih, List.flatMap_cons]

/-- The comments of a node are told in the way that grouping respects. -/
theorem tells_comments : TellsComments comments :=
  ⟨fun _ h => (content_noise h).2, comments_comment, fun n => comments_wrap rfl n⟩

end Node

namespace Layout

/-! ## Pages -/

/-- A rendered form says what the node says: the same code, unless discards are stacked in the node,
    and the same comments in their tidy form, inside it or leaving. -/
structure Keeps (r : Rendered) (n : Node) : Prop where
  code : n.lacks Node.stacksDiscards = true → r.node.code = n.code
  comments : (r.node.comments ++ r.hoisted.map Comment.tidy).Perm (n.comments.map Comment.tidy)

/-- The only marker there is, is `&`. -/
theorem marker_of_made {P : Node → Prop} {Q : String → Prop} {i : Item} (h : i.Made P Q) :
    i.marker = none ∨ i.marker = some "&" := by
  cases h with
  | comment => exact .inl rfl
  | element form made marked trailing => exact marked

section

variable {children : List Node} (hfit : ∀ c ∈ children, Fit c) {script : Script}
  {leaving : List String}
  (haccount : Account (Somewhere (layout .standard) 0) (Item.group children) script.items leaving)
  (hkeeps : ∀ i ∈ Item.group children, i.isComment = false → ∀ (place : Place) (c : Int), 0 ≤ c →
    Keeps (place.lay (layout .standard) c i.element) i.element)

include hfit haccount hkeeps

/-- What the elements say comes out again, unless discards are stacked. -/
theorem code_script (hlacks : ∀ c ∈ children, c.lacks Node.stacksDiscards = true) :
    Node.codeAll script.nodes = Node.codeAll children := by
  have hunstacked := unstacked_of_lacks hlacks
  rw [Node.codeAll_forms, Node.codeAll_forms, ← holdings_group Node.code (.inr hunstacked)]
  refine forms_page Node.code (made_of_fit hfit) haccount fun l column hsite i hi hnot => ?_
  obtain ⟨hc, place, rfl⟩ := hsite
  exact (hkeeps i hi hnot place column hc).code
    (hlacks _ (element_mem_of_unstacked hunstacked hi hnot))

/-- The comments come out in their tidy form, on the page or leaving it. -/
theorem tidyComments_script :
    (Node.commentsAll script.nodes ++ leaving.map Comment.tidy).Perm
      ((Node.commentsAll children).map Comment.tidy) := by
  have hmarkers : ∀ i ∈ Item.group children, ∀ m ∈ i.marker, (Node.atom m).comments = [] := by
    intro i hi m hm
    rcases marker_of_made (made_of_fit hfit i hi) with h | h <;> rw [h] at hm <;> cases hm
    rfl
  have hpage := comments_page Node.tells_comments (t := id) (fun _ => rfl) haccount hmarkers
    fun l column hsite i hi hnot => by
      obtain ⟨hc, place, rfl⟩ := hsite
      simpa [KeepsComments] using (hkeeps i hi hnot place column hc).comments
  rw [List.map_id] at hpage
  rw [Node.commentsAll_eq, Node.commentsAll_eq]
  exact hpage.trans ((Node.tells_comments.group children).symm.map Comment.tidy)

end

/-! ## Trees -/

/-- Neither marks nor comments that are lifted over them change what a node says. -/
theorem keeps_fused {m : Mark} (hm : m.fuses = true) {cs ds : List Node} {r : Rendered}
    (hnode : r.node = .list ds) (h : Keeps r (.list cs)) :
    Keeps { r with node := .wrap m r.node } (.wrap m (.list cs)) := by
  obtain ⟨node, hoisted, notes⟩ := r
  subst hnode
  have hlist : Bracket.list.isCollection = true := rfl
  refine ⟨fun hlacks => ?_, ?_⟩
  · have hcode := h.code (Node.lacks_wrap.mp hlacks).2
    rw [Node.code_branch hlist, Node.code_branch hlist] at hcode
    injection hcode with _ hcode
    rw [Node.code_fused hm, Node.code_fused hm, hcode]
  · have hcomments := h.comments
    rw [Node.comments_branch hlist, Node.comments_branch hlist] at hcomments
    rw [Node.comments_fused hm, Node.comments_fused hm]
    exact hcomments

/-- A mark over a form that keeps its content adds the same token to both sides. -/
theorem keeps_wrap {m : Mark} (hm : m.fuses = false) {n : Node} {r : Rendered} (h : Keeps r n) :
    Keeps { r with node := .wrap m r.node } (.wrap m n) := by
  refine ⟨fun hlacks => ?_, ?_⟩
  · rw [Node.code_wrap hm, Node.code_wrap hm, h.code (Node.lacks_wrap.mp hlacks).2]
  · rw [Node.comments_wrap hm, Node.comments_wrap hm]
    exact h.comments

theorem keeps_annotated {m t : Node} {r s : Rendered} (hm : Keeps r m) (ht : Keeps s t) :
    Keeps ⟨.annotated r.node s.node, r.hoisted ++ s.hoisted, r.notes ++ s.notes⟩
      (.annotated m t) := by
  refine ⟨fun hlacks => ?_, ?_⟩
  · obtain ⟨-, hlm, hlt⟩ := Node.lacks_annotated.mp hlacks
    rw [Node.code_annotated, Node.code_annotated, hm.code hlm, ht.code hlt]
  · have hboth := hm.comments.append ht.comments
    rw [Node.comments_annotated, Node.comments_annotated, List.map_append, List.map_append]
    exact (perm_exchange ..).trans hboth

/-- A collection keeps its content if the elements of its items keep theirs, wherever they are
    placed. -/
theorem keeps_branch {b : Bracket} {children : List Node} (hb : b.isCollection = true)
    (hfit : ∀ c ∈ children, Fit c) (hns : (Node.branch b children).declaresNamespace = false)
    (ih : ∀ i ∈ Item.group children, i.isComment = false → ∀ (place : Place) (c : Int), 0 ≤ c →
      Keeps (place.lay (layout .standard) c i.element) i.element)
    (place : Place) {column : Int} (hc : 0 ≤ column) :
    Keeps (place.lay (layout .standard) column (.branch b children)) (.branch b children) := by
  obtain ⟨plan, hplan⟩ := exists_plan (declares_standard hns) place
  obtain ⟨hnode, hhoisted⟩ := shows_layout hb hplan column
  have haccount := account_page (serves_somewhere (faithful_layout .standard) 0)
    (indents_plan hplan) (Int.le_refl 0) hc b (Item.group children)
  refine ⟨fun hlacks => ?_, ?_⟩
  · have hscript := code_script hfit haccount ih (Node.lacks_branch.mp hlacks).2
    rw [hnode, Node.code_branch hb, Node.code_branch hb, Node.codeAll_forms, forms_children,
      ← Node.codeAll_forms, hscript]
  · rw [hnode, hhoisted, Node.comments_branch hb, Node.comments_branch hb, Node.commentsAll_eq,
      comments_children Node.tells_comments, ← Node.commentsAll_eq]
    exact tidyComments_script hfit haccount ih

/-- An atom of a sound tree is no comment. -/
theorem comments_atom {text : String} (h : (Node.atom text).Sound) :
    (Node.atom text).comments = [] := by
  cases h with
  | leaf whole atom =>
    have hkind := atom rfl
    rw [Node.comments, Node.pieces, LeafKind.piece, Piece.comments]
    cases hk : Piece.kindOf text <;> first | rfl | (rw [hk] at hkind; cases hkind)

/-- **Content.**  A fit form says the same when it is laid out. -/
theorem keeps_lay (n : Node) (hfit : Fit n) (hform : n.isForm = true) :
    ∀ (place : Place) (column : Int), 0 ≤ column →
      Keeps (place.lay (layout .standard) column n) n := by
  refine fit_induction (P := fun n => ∀ (place : Place) (column : Int), 0 ≤ column →
    Keeps (place.lay (layout .standard) column n) n) ?_ ?_ ?_ ?_ ?_ n hfit hform
  · intro text hsound place column _
    have hcomments := comments_atom hsound
    rw [lay_leaf]
    refine ⟨fun _ => rfl, ?_⟩
    rw [hcomments]
    exact .of_eq (by simpa [tidyLeaf] using hcomments)
  · intro b cs hb hcs hns ih place column hc
    exact keeps_branch hb hcs hns ih place hc
  · intro m cs hm ih place column hc
    obtain ⟨ds, hds⟩ :=
      list_of_face (face_lay .standard (Mark.place m) (column + m.width) (.list cs))
    rw [lay_wrap]
    exact keeps_fused hm hds (ih (Mark.place m) _ (by omega))
  · intro m n hm _ _ _ _ ih place column hc
    rw [lay_wrap]
    exact keeps_wrap hm (ih (Mark.place m) _ (by omega))
  · intro m t _ _ ihm iht place column hc
    rw [lay_annotated]
    exact keeps_annotated (ihm .plain _ (by omega)) (iht .plain _ (target_nonneg hc _))

/-- **Documents keep their content.** -/
theorem keeps_document {children : List Node} (h : ∀ c ∈ children, Fit c) :
    ((∀ c ∈ children, c.lacks Node.stacksDiscards = true) →
        Node.codeAll (documentNodes children) = Node.codeAll children) ∧
      (Node.commentsAll (documentNodes children)).Perm
        ((Node.commentsAll children).map Comment.tidy) := by
  have hkeeps : ∀ i ∈ Item.group children, i.isComment = false → ∀ (place : Place) (c : Int),
      0 ≤ c → Keeps (place.lay (layout .standard) c i.element) i.element := by
    intro i hi hnot
    cases made_of_fit h i hi with
    | comment => cases hnot
    | element form made marked trailing => exact keeps_lay _ made form
  have haccount := account_document .standard children
  have hcomments := tidyComments_script h haccount hkeeps
  rw [List.map_nil, List.append_nil] at hcomments
  exact ⟨code_script h haccount hkeeps, hcomments⟩

end Layout

end CljTidy
