/-
  Trees with a plan throughout.

  A tree is regular under a table if it has the shape that reading builds and none of its lists is a
  declaration.  Every collection of a regular tree has a plan, so the induction over regular forms
  (`regular_induction`) asks no more of a collection than what is true of the elements of its items.
-/
import CljTidy.Proofs.Item.Grouping
import CljTidy.Proofs.Layout.Plan

namespace CljTidy.Layout

/-- The node has the shape that reading builds, and nothing in it is a declaration. -/
structure Regular (table : Table) (n : Node) : Prop where
  shape : n.lacks Node.misshapen = true
  planned : n.lacks (declares table) = true

variable {table : Table}

/-- A regular collection declares nothing, and its children are regular. -/
theorem Regular.branch {b : Bracket} {cs : List Node} (h : Regular table (.branch b cs)) :
    b.isCollection = true ∧ declares table (.branch b cs) = false ∧ ∀ c ∈ cs, Regular table c := by
  obtain ⟨hshape, hcs⟩ := Node.lacks_branch.mp h.shape
  obtain ⟨hdeclares, hplanned⟩ := Node.lacks_branch.mp h.planned
  exact ⟨by simpa [Node.misshapen] using hshape, hdeclares, fun c hc => ⟨hcs c hc, hplanned c hc⟩⟩

theorem Regular.wrap {m : Mark} {n : Node} (h : Regular table (.wrap m n)) :
    n.isForm = true ∧ Regular table n := by
  obtain ⟨hshape, hn⟩ := Node.lacks_wrap.mp h.shape
  exact ⟨by simpa [Node.misshapen] using hshape, hn, (Node.lacks_wrap.mp h.planned).2⟩

theorem Regular.annotated {m t : Node} (h : Regular table (.annotated m t)) :
    (m.isForm = true ∧ Regular table m) ∧ t.isForm = true ∧ Regular table t := by
  obtain ⟨hshape, hm, ht⟩ := Node.lacks_annotated.mp h.shape
  obtain ⟨-, hpm, hpt⟩ := Node.lacks_annotated.mp h.planned
  have hforms : m.isForm = true ∧ t.isForm = true := by simpa [Node.misshapen] using hshape
  exact ⟨⟨hforms.1, hm, hpm⟩, hforms.2, ht, hpt⟩

/-- A discard over a regular form is regular. -/
theorem Regular.discard {n : Node} (hform : n.isForm = true) (h : Regular table n) :
    Regular table (.discard n) :=
  ⟨Node.lacks_wrap.mpr ⟨by simp [Node.misshapen, hform], h.shape⟩,
    Node.lacks_wrap.mpr ⟨rfl, h.planned⟩⟩

/-- Under a table without declarations the shape is enough. -/
theorem regular_of_no_ns (htable : ∀ entry ∈ table, entry.2 ≠ .ns) {n : Node}
    (h : n.lacks Node.misshapen = true) : Regular table n :=
  ⟨h, Node.lacks_of_none (declares_of_no_ns htable) n⟩

/-- A kind of node that grouping and canonical order do not bring about: no collection is of it, a
    discard is only if it does not discard a form, nor are what is written between items and an `&`;
    and a part of an atom is not of it if the atom is not. -/
structure Foreign (kind : Node → Bool) : Prop where
  branch : ∀ {b : Bracket} (cs : List Node), b.isCollection = true → kind (.branch b cs) = false
  discard : ∀ n : Node, kind (.discard n) = !n.isForm
  space : kind (.space " ") = false
  newline : kind (.newline "\n") = false
  marker : kind (.atom "&") = false
  part : ∀ {text part : String}, part.toList ⊆ text.toList → kind (.atom text) = false →
    kind (.atom part) = false

/-- Neither grouping nor canonical order makes a node misshapen. -/
theorem foreign_misshapen : Foreign Node.misshapen where
  branch _ hb := by simp [Node.misshapen, hb]
  discard _ := rfl
  space := rfl
  newline := rfl
  marker := rfl
  part _ _ := rfl

/-- The items of children that lack a kind of node are made of forms and comments that do. -/
theorem Foreign.made_group {kind : Node → Bool} (hkind : Foreign kind) {children : List Node}
    (h : ∀ c ∈ children, c.lacks kind = true) :
    ∀ i ∈ Item.group children,
      i.Made (fun n => n.lacks kind = true) fun text => kind (.comment text) = false := by
  refine CljTidy.made_group (fun n hform hn => ?_) (fun n hn => ?_) (fun c hc _ => h c hc)
    fun text htext => ?_
  · exact Node.lacks_wrap.mpr ⟨by simp [hkind.discard, hform], hn⟩
  · obtain ⟨hdiscard, hchild⟩ := Node.lacks_wrap.mp hn
    exact ⟨by simpa [hkind.discard] using hdiscard, hchild⟩
  · exact Node.lacks_leaf.mp (h _ htext)

/-- The items of well-shaped children are made of well-shaped forms and comments. -/
theorem made_of_shape {children : List Node}
    (h : ∀ c ∈ children, c.lacks Node.misshapen = true) :
    ∀ i ∈ Item.group children, i.Made (fun n => n.lacks Node.misshapen = true) fun _ => True :=
  fun i hi => (foreign_misshapen.made_group h i hi).imp (fun _ hn => hn) fun _ _ => trivial

/-- The items of regular children are made of regular forms and comments. -/
theorem made_of_regular {children : List Node} (h : ∀ c ∈ children, Regular table c) :
    ∀ i ∈ Item.group children, i.Made (Regular table) fun _ => True :=
  made_group (fun _ hform hn => hn.discard hform) (fun _ hn => hn.wrap) (fun c hc _ => h c hc)
    fun _ _ => trivial

section

variable {P : Node → Prop} (atom : ∀ text, P (.atom text))
  (branch : ∀ b cs, b.isCollection = true → (∀ c ∈ cs, Regular table c) →
    declares table (.branch b cs) = false →
    (∀ i ∈ Item.group cs, i.isComment = false → P i.element) → P (.branch b cs))
  (wrap : ∀ m n, n.isForm = true → P n → P (.wrap m n))
  (annotated : ∀ m t, m.isForm = true → t.isForm = true → P m → P t → P (.annotated m t))

include atom branch wrap annotated

/-- Induction over regular forms that goes from a collection to the elements of its items. -/
theorem regular_induction (n : Node) (h : Regular table n) (hform : n.isForm = true) : P n := by
  revert h hform
  refine item_induction (P := fun n => Regular table n → n.isForm = true → P n) ?_ ?_ ?_ ?_ ?_ n
  · intro kind text _ hform
    cases kind with
    | atom => exact atom text
    | _ => cases hform
  · intro b cs ih h _
    obtain ⟨hb, hdeclares, hcs⟩ := h.branch
    refine branch b cs hb hcs hdeclares fun i hi hnot => ?_
    cases made_of_regular hcs i hi with
    | comment => cases hnot
    | element form made => exact ih _ hi made form
  · intro m n ih h _
    exact wrap m n h.wrap.1 (ih h.wrap.2 h.wrap.1)
  · intro m t ihm iht h _
    obtain ⟨⟨hm, hrm⟩, ht, hrt⟩ := h.annotated
    exact annotated m t hm ht (ihm hrm hm) (iht hrt ht)
  · intro h
    cases h.shape

end

end CljTidy.Layout
