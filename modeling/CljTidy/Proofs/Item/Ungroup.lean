/-
  Plain items.

  An item is plain if it is a comment or a form that stands for itself: no `&` in front, no `&` as
  its element, no discards on top of each other.  Children without any of these make plain items
  (`plain_group`), whose elements are children.  Unlike settled items, plain items may be put into
  any order, and they are still found again once they are written out (`group_ungroup`).
-/
import CljTidy.Proofs.Item.Settled
import CljTidy.Proofs.Layout.Shape

namespace CljTidy

/-! ## Plain items -/

/-- None of the nodes is an `&` or a discard on top of another one. -/
def Node.Plain (children : List Node) : Prop :=
  ∀ c ∈ children, c ≠ .atom "&" ∧ c.stacksDiscards = false

instance (children : List Node) : Decidable (Node.Plain children) :=
  inferInstanceAs (Decidable (∀ c ∈ children, c ≠ .atom "&" ∧ c.stacksDiscards = false))

/-- An item that is a comment, or a form that stands for itself. -/
inductive Item.Plain : Item → Prop
  | comment (text : String) : Plain ⟨.comment text, none, none⟩
  | element {node : Node} (comment : Option String) (form : node.isForm = true)
      (depth : node.discardDepth ≤ 1) (named : node ≠ .atom "&") : Plain ⟨node, none, comment⟩

theorem Node.discardDepth_of_not_stacked {n : Node} (h : n.stacksDiscards = false) :
    n.discardDepth ≤ 1 := by
  rcases n with _ | _ | ⟨m, child⟩ | _ | _
  case wrap =>
    cases m with
    | discard =>
      have hchild : child.discardDepth = 0 := by
        refine Node.discardDepth_eq_zero ?_
        rintro grandchild rfl
        cases h
      exact Nat.succ_le_succ (Nat.le_of_eq hchild)
    | _ => exact Nat.zero_le 1
  all_goals exact Nat.zero_le 1

theorem Node.Plain.unstacked {children : List Node} (h : Node.Plain children) :
    Unstacked children := fun c hc => Node.discardDepth_of_not_stacked (h c hc).2

/-- Without an `&` among the children no item has a marker. -/
theorem marker_mem_of_unstacked {children : List Node} (h : Unstacked children) {i : Item}
    (hi : i ∈ Item.group children) (hnot : i.isComment = false) :
    ∀ text ∈ i.marker, .atom text ∈ children := by
  intro text htext
  have hmarker : i.marker = some text := htext
  exact mem_of_unstacked h hi hnot (by simp [Item.holding, Item.core, hmarker])

/-- Items that are made of plain children are plain, and their elements are children. -/
theorem plain_of_made {children : List Node} (hplain : Node.Plain children) {P : Node → Prop}
    {Q : String → Prop} (hmade : ∀ i ∈ Item.group children, i.Made P Q) :
    ∀ i ∈ Item.group children, i.Plain ∧ (i.isComment = false → i.element ∈ children) := by
  intro i hi
  have hmem := element_mem_of_unstacked hplain.unstacked hi
  have hmarker := marker_mem_of_unstacked hplain.unstacked hi
  refine ⟨?_, hmem⟩
  cases hmade i hi with
  | @comment text => exact .comment text
  | @element node marker comment form made marked =>
    have hnot : (⟨node, marker, comment⟩ : Item).isComment = false := (Node.isForm_iff.mp form).2
    obtain ⟨hnamed, hstacked⟩ := hplain node (hmem hnot)
    rcases marked with rfl | rfl
    · exact .element comment form (Node.discardDepth_of_not_stacked hstacked) hnamed
    · exact absurd rfl (hplain _ (hmarker hnot "&" rfl)).1

/-- **Plain children make plain items**, and their elements are children. -/
theorem plain_group {children : List Node} (hplain : Node.Plain children)
    (hshape : ∀ c ∈ children, c.lacks Node.misshapen = true) :
    ∀ i ∈ Item.group children, i.Plain ∧ (i.isComment = false → i.element ∈ children) :=
  plain_of_made hplain (Layout.made_of_shape hshape)

/-! ## Writing out -/

/-- Plain items are settled: none of them is an `&`, and no discards are stacked. -/
theorem Item.settled_of_plain {items : List Item} (hplain : ∀ i ∈ items, i.Plain) :
    Item.Settled items where
  made := by
    intro i hi
    cases hplain i hi with
    | comment text => exact .comment trivial
    | element comment form => exact .element form trivial (.inl rfl) fun _ _ => trivial
  shallow := by
    intro c hc
    obtain ⟨i, hi, hnot, rfl⟩ := Item.mem_cores (List.dropLast_subset _ hc)
    cases hplain i hi with
    | comment text => cases hnot
    | element comment form depth => exact depth
  adjoins := by
    induction items with
    | nil => exact .nil
    | cons i items ih =>
      obtain ⟨hi, hrest⟩ := List.forall_mem_cons.mp hplain
      refine List.isChain_cons.mpr ⟨fun j _ hlone => ?_, ih hrest⟩
      rw [hlone] at hi
      cases hi with
      | element comment form depth named => exact absurd rfl named

/-- **Plain items written out are found again.** -/
theorem group_ungroup {items : List Item} (hplain : ∀ i ∈ items, i.Plain) :
    Item.group (Item.ungroup items) = items :=
  group_ungroup_settled (Item.settled_of_plain hplain)

end CljTidy
