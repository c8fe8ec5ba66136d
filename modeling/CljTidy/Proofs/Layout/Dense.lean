/-
  The single line as a canonical form.

  1. **Program** — `Node.flatten` puts a node on a single line; entries of namespace declarations
     are sorted by the text of that line.

  2. **Specification** — `Node.dense` is the node without the trivia in it.  Among forms without
     comments in which no discards are stacked, the single line is a canonical form of what is
     dense: two of them have the same single line exactly if they are the same but for trivia.

  3. **The crux** — nothing is lost either way.  Making a single line dense gives what is dense in
     the node (`dense_flatten`), since grouping and writing on a line pass on the forms among the
     children as they are (`forms_inline`); and what is dense has the single line of the node
     (`flatten_dense`), since grouping does not miss the trivia.
-/
import CljTidy.Proofs.Layout.Code
import CljTidy.Proofs.Layout.Single

namespace CljTidy

/-! ## Without trivia -/

namespace Node

mutual

/-- The node without the trivia in it. -/
def dense : Node → Node
  | .branch b children => .branch b (denseAll children)
  | .wrap mark child => .wrap mark child.dense
  | .annotated metadata target => .annotated metadata.dense target.dense
  | node => node

/-- The nodes that are not trivia, each one without the trivia in it. -/
def denseAll : List Node → List Node
  | [] => []
  | node :: nodes => if node.isNoise then denseAll nodes else node.dense :: denseAll nodes

end

/-- The nodes that are not trivia. -/
def solid (ns : List Node) : List Node := ns.filter fun n => !n.isNoise

theorem denseAll_eq (ns : List Node) : denseAll ns = (solid ns).map dense := by
  induction ns with
  | nil => rfl
  | cons n ns ih =>
    rw [denseAll, solid, List.filter_cons, ih]
    cases n.isNoise <;> rfl

/-- A branch is dense if what is not trivia in it is. -/
theorem dense_branch (b : Bracket) (cs : List Node) :
    (branch b cs).dense = .branch b ((solid cs).map dense) := by
  rw [dense, denseAll_eq]

end Node

/-- Leaving out trivia and a change inside nodes go together. -/
theorem Inward.solid {f : Node → Node} (hf : Inward f) (ns : List Node) :
    Node.solid (ns.map f) = (Node.solid ns).map f := by
  rw [Node.solid, List.filter_map]
  exact congrArg (List.map f) (List.filter_congr fun n _ => congrArg (! ·) (hf.isNoise n))

/-! ## Children without comments -/

section

variable {cs : List Node} (hnone : ∀ c ∈ cs, c.isComment = false)

include hnone

namespace Node

/-- Without comments no line break is needed. -/
theorem sift_of_no_comments (broken : Bool) : sift broken cs = solid cs := by
  induction cs generalizing broken with
  | nil => rfl
  | cons c cs ih =>
    obtain ⟨hc, hrest⟩ := List.forall_mem_cons.mp hnone
    rw [sift, solid, List.filter_cons]
    cases c.isNoise with
    | true => exact ih hrest _
    | false =>
      rw [if_neg Bool.false_ne_true, if_neg (Bool.eq_false_iff.mp hc), ih hrest]
      rfl

/-- Without comments what is not trivia is a form. -/
theorem solid_eq_forms : solid cs = cs.filter isForm :=
  List.filter_congr fun c hc => by rw [isForm, hnone c hc, Bool.not_false, Bool.and_true]

end Node

/-- Grouping does not miss trivia where no comment is. -/
theorem group_solid : Item.group (Node.solid cs) = Item.group cs := by
  rw [← Node.sift_of_no_comments hnone true, group_sift]

/-- Without comments among the children there are none among the items. -/
theorem isComment_of_group {i : Item} (hi : i ∈ Item.group cs) : i.isComment = false := by
  have hmade : i.Made (fun _ => True) fun _ => False :=
    made_of_group (fun text htext => by cases hnone _ htext) i hi
  cases hmade with
  | comment absurd => exact absurd.elim
  | element form => exact (Node.isForm_iff.mp form).2

end

/-! ## Items on a line -/

/-- Of the nodes of an item on a line only its marker and its element are no trivia. -/
theorem solid_inlineNodes {i : Item} (hi : i.element.isForm = true) :
    Node.solid i.inlineNodes = Item.holding (fun n => [n]) i.core := by
  obtain ⟨element, marker, comment⟩ := i
  have hnoise : element.isNoise = false := (Node.isForm_iff.mp hi).1
  have hmarker : ∀ text, (Node.atom text).isNoise = false := fun _ => rfl
  have hspace : (Node.space " ").isNoise = true := rfl
  cases marker <;>
    simp [Node.solid, Item.inlineNodes, Item.holding, Item.core, hnoise, hmarker, hspace]

/-- What is not trivia on a line are the elements and their markers. -/
theorem solid_inline {items : List Item} (h : ∀ i ∈ items, i.element.isForm = true) :
    Node.solid (Item.inline items) = Item.holdings (fun n => [n]) items := by
  fun_induction Item.inline items with
  | case1 => rfl
  | case2 i =>
    have hi := h i (List.mem_singleton.mpr rfl)
    rw [solid_inlineNodes hi, Item.holdings_element _ (Node.isForm_iff.mp hi).2]
  | case3 i items _ ih =>
    obtain ⟨hi, hrest⟩ := List.forall_mem_cons.mp h
    have hspace : Node.solid (.space " " :: Item.inline items) = Node.solid (Item.inline items) :=
      rfl
    rw [Node.solid, List.filter_append, ← Node.solid, ← Node.solid, hspace, ih hrest,
      solid_inlineNodes hi, List.singleton_append.symm, Item.holdings_append,
      Item.holdings_element _ (Node.isForm_iff.mp hi).2]

/-- **Nothing is lost on a line.** -/
theorem forms_inline {cs : List Node} (hnone : ∀ c ∈ cs, c.isComment = false)
    (hunstacked : Unstacked cs) : Node.solid (Item.inline (Item.group cs)) = Node.solid cs := by
  rw [solid_inline fun i hi => isForm_of_group hi (isComment_of_group hnone hi),
    holdings_group _ (.inr hunstacked), Node.solid_eq_forms hnone, List.flatMap_singleton']

/-! ## Code without comments -/

/-- A line break or a comma. -/
def Node.isBreakOrComma : Node → Bool
  | newline _ => true
  | comma _ => true
  | _ => false

/-- A form as reading builds it, without comments and without a discard right on another one. -/
structure Node.Quiet (n : Node) : Prop where
  form : n.isNoise = false
  shape : n.lacks misshapen = true
  comments : n.containsComment = false
  discards : n.lacks stacksDiscards = true

namespace Node.Quiet

/-- A child holds no comment if the collection holds none. -/
theorem containsComment_child {b : Bracket} {cs : List Node} (h : (branch b cs).Quiet) {c : Node}
    (hc : c ∈ cs) : c.containsComment = false := by
  have hany := h.comments
  rw [containsComment, anyContainsComment_eq, List.any_eq_false] at hany
  exact Bool.eq_false_iff.mpr (hany c hc)

/-- The children of a collection that are not trivia. -/
theorem child {b : Bracket} {cs : List Node} (h : (branch b cs).Quiet) {c : Node} (hc : c ∈ cs)
    (hform : c.isNoise = false) : c.Quiet where
  form := hform
  shape := (lacks_branch.mp h.shape).2 c hc
  comments := h.containsComment_child hc
  discards := (lacks_branch.mp h.discards).2 c hc

theorem isCollection {b : Bracket} {cs : List Node} (h : (branch b cs).Quiet) :
    b.isCollection = true := by
  simpa [misshapen] using (lacks_branch.mp h.shape).1

/-- No child of a quiet collection is a comment. -/
theorem no_comments {b : Bracket} {cs : List Node} (h : (branch b cs).Quiet) :
    ∀ c ∈ cs, c.isComment = false := by
  intro c hc
  rw [Bool.eq_false_iff]
  intro hcomment
  obtain ⟨text, rfl⟩ := eq_comment hcomment
  cases h.containsComment_child hc

theorem unstacked {b : Bracket} {cs : List Node} (h : (branch b cs).Quiet) : Unstacked cs :=
  Layout.unstacked_of_lacks (lacks_branch.mp h.discards).2

/-- The form under a mark is quiet. -/
theorem wrap {m : Mark} {n : Node} (h : (Node.wrap m n).Quiet) : n.Quiet := by
  obtain ⟨hform, hshape⟩ := lacks_wrap.mp h.shape
  have hform : n.isForm = true := by simpa [misshapen] using hform
  exact ⟨(isForm_iff.mp hform).1, hshape, h.comments, (lacks_wrap.mp h.discards).2⟩

/-- Both forms of metadata are quiet. -/
theorem annotated {m t : Node} (h : (Node.annotated m t).Quiet) : m.Quiet ∧ t.Quiet := by
  obtain ⟨hforms, hm, ht⟩ := lacks_annotated.mp h.shape
  have hforms : m.isForm = true ∧ t.isForm = true := by simpa [misshapen] using hforms
  obtain ⟨-, hdm, hdt⟩ := lacks_annotated.mp h.discards
  obtain ⟨hcm, hct⟩ := Bool.or_eq_false_iff.mp h.comments
  exact ⟨⟨(isForm_iff.mp hforms.1).1, hm, hcm, hdm⟩, (isForm_iff.mp hforms.2).1, ht, hct, hdt⟩

end Node.Quiet

/-! ## The single line and what is dense -/

namespace Node

/-- On a single line no discards come to be stacked. -/
theorem unstacked_flatten {cs : List Node} (h : Unstacked cs) :
    Unstacked (cs.map flatten) := by
  rintro _ hd
  obtain ⟨c, hc, rfl⟩ := List.mem_map.mp hd
  rw [inward_flatten.discardDepth]
  exact h c hc

/-- On a single line no comment comes up. -/
theorem no_comments_flatten {cs : List Node} (h : ∀ c ∈ cs, c.isComment = false) :
    ∀ d ∈ cs.map flatten, d.isComment = false := by
  rintro _ hd
  obtain ⟨c, hc, rfl⟩ := List.mem_map.mp hd
  rw [inward_flatten.isComment]
  exact h c hc

/-- **The single line keeps what is dense.** -/
theorem dense_flatten {n : Node} (h : n.Quiet) : n.flatten.dense = n.dense := by
  induction n using Node.induction with
  | leaf kind text => rfl
  | branch b cs ih =>
    have hchildren : ∀ c ∈ solid cs, c.flatten.dense = c.dense := by
      intro c hc
      obtain ⟨hmem, hform⟩ := List.mem_filter.mp hc
      exact ih c hmem (h.child hmem (by simpa using hform))
    rw [flatten_collection h.isCollection, dense_branch, dense_branch,
      forms_inline (no_comments_flatten h.no_comments) (unstacked_flatten h.unstacked),
      inward_flatten.solid, List.map_map]
    exact congrArg (branch b) (List.map_congr_left hchildren)
  | wrap m n ih => rw [flatten, dense, ih h.wrap, dense]
  | annotated m t ihm iht =>
    rw [flatten, dense, ihm h.annotated.1, iht h.annotated.2, dense]
  | unknown => rfl

/-- **What is dense has the single line.** -/
theorem flatten_dense {n : Node} (h : n.Quiet) : n.dense.flatten = n.flatten := by
  induction n using Node.induction with
  | leaf kind text => rfl
  | branch b cs ih =>
    have hchildren : ((solid cs).map dense).map flatten = solid (cs.map flatten) := by
      rw [inward_flatten.solid, List.map_map]
      refine List.map_congr_left fun c hc => ?_
      obtain ⟨hmem, hform⟩ := List.mem_filter.mp hc
      exact ih c hmem (h.child hmem (by simpa using hform))
    rw [dense_branch, flatten_collection h.isCollection, flatten_collection h.isCollection,
      hchildren, group_solid (no_comments_flatten h.no_comments)]
  | wrap m n ih => rw [dense, flatten, ih h.wrap, flatten]
  | annotated m t ihm iht =>
    rw [dense, flatten, ihm h.annotated.1, iht h.annotated.2, flatten]
  | unknown => rfl

/-- There are only spaces between the elements of a single line. -/
theorem lacks_isBreakOrComma_flatten {n : Node} (h : n.Quiet) :
    n.flatten.lacks isBreakOrComma = true := by
  induction n using Node.induction with
  | leaf kind text =>
    have hform := h.form
    cases kind <;> first | rfl | cases hform
  | branch b cs ih =>
    have hnone := no_comments_flatten h.no_comments
    have hunstacked := unstacked_flatten h.unstacked
    rw [flatten_collection h.isCollection]
    refine lacks_branch.mpr ⟨rfl, Item.forall_inline (P := fun n => n.lacks isBreakOrComma = true)
      rfl (fun _ => rfl) fun i hi => ?_⟩
    -- An element is one of the children, each on a line of its own.
    have hform := isForm_of_group hi (isComment_of_group hnone hi)
    obtain ⟨c, hc, helement⟩ := List.mem_map.mp
      (element_mem_of_unstacked hunstacked hi (isForm_iff.mp hform).2)
    rw [← helement] at hform ⊢
    exact ih c hc (h.child hc ((inward_flatten.isNoise c).symm.trans (isForm_iff.mp hform).1))
  | wrap m n ih => exact lacks_wrap.mpr ⟨rfl, ih h.wrap⟩
  | annotated m t ihm iht =>
    exact lacks_annotated.mpr ⟨rfl, ihm h.annotated.1, iht h.annotated.2⟩
  | unknown => rfl

/-- **A canonical form.**  Among quiet nodes the single line is the same exactly if what is dense is
    the same; it has what is dense in the node, is its own single line, and holds no line breaks or
    commas. -/
theorem flatten_canonical {a b : Node} (ha : a.Quiet) (hb : b.Quiet) :
    (a.flatten = b.flatten ↔ a.dense = b.dense) ∧ a.flatten.dense = a.dense ∧
      a.flatten.flatten = a.flatten ∧ a.flatten.lacks isBreakOrComma = true := by
  refine ⟨⟨fun h => ?_, fun h => ?_⟩, dense_flatten ha,
    Layout.flatten_flatten a ha.shape (commentTexts_eq_nil.mpr ha.comments),
    lacks_isBreakOrComma_flatten ha⟩
  · rw [← dense_flatten ha, h, dense_flatten hb]
  · rw [← flatten_dense ha, h, flatten_dense hb]

/-- Two ways to space out a vector of bindings with a discard in it. -/
theorem flatten_canonical_bindings :
    let a : Node := .vector [.atom "&", .newline "\n", .atom "more", .comma ",",
      .discard (.map [.atom ":k", .space "  ", .atom "1"])]
    let b : Node := .vector [.space " ", .atom "&", .comma ", ", .atom "more", .space " ",
      .discard (.map [.atom ":k", .newline "\n", .atom "1", .space " "])]
    a.Quiet ∧ b.Quiet ∧ a.flatten = b.flatten ∧ a.flatten.dense = a.dense ∧
      a.flatten.flatten = a.flatten ∧ a.flatten.lacks isBreakOrComma = true := by
  intro a b
  have ha : a.Quiet := ⟨rfl, rfl, rfl, rfl⟩
  have hb : b.Quiet := ⟨rfl, rfl, rfl, rfl⟩
  obtain ⟨hiff, hdense, hflat, hlacks⟩ := flatten_canonical ha hb
  exact ⟨ha, hb, hiff.mpr rfl, hdense, hflat, hlacks⟩

end Node

end CljTidy
