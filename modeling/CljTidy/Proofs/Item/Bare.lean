/-
  Items without their comments.

  Where comments are moved away, the elements that are left are written out bare, next to each
  other, and grouped again.  They are found again, with one exception, and `group_bares` says
  exactly when: an `&` that a comment cut off from the form behind it was an element of its own,
  and without the comment it is the marker of that form.

  On the side of the items the exception is an `&` on its own with another element behind it
  (`settled_bares`).  On the side of the children it is `Node.strandsMarker`, a scan that knows only
  whether an `&` waits.  `strands_step` carries the one to the other, one child at a time; what is
  the last element now counts as soon as a form is still to come (`Grouping.passed`).
-/
import CljTidy.Proofs.Item.Settled

namespace CljTidy

/-! ## Bare elements -/

namespace Item

/-- The elements with their markers, and no comments. -/
def bares (items : List Item) : List Item := (elements items).map bare

/-- A bare item is an element without a trailing comment. -/
theorem mem_bares {items : List Item} {i : Item} (h : i ∈ bares items) :
    i.isComment = false ∧ i.comment = none := by
  obtain ⟨j, hj, rfl⟩ := List.mem_map.mp h
  have hnot : j.isComment = false := by simpa using (List.mem_filter.mp hj).2
  exact ⟨hnot, rfl⟩

theorem map_core_bares (items : List Item) : (bares items).map core = cores items := by
  rw [bares, List.map_map]
  rfl

/-- Nothing but comments is gone. -/
theorem cores_bares (items : List Item) : cores (bares items) = cores items := by
  have hall : elements (bares items) = bares items :=
    List.filter_eq_self.mpr fun i hi => by simp [(mem_bares hi).1]
  rw [cores, hall, map_core_bares]

/-- Bare items with the element and the marker of a lone `&` are one. -/
theorem eq_lone_iff {i : Item} (h : i.comment = none) : i = lone ↔ i.core = stray := by
  obtain ⟨element, marker, comment⟩ := i
  obtain rfl : comment = none := h
  simp [lone, core, stray]

/-- If no comment is left to come behind an `&` on its own, it can only be the last item. -/
theorem isChain_adjoins {items : List Item}
    (hbare : ∀ i ∈ items, i.isComment = false ∧ i.comment = none) :
    items.IsChain Adjoins ↔ stray ∉ (items.map core).dropLast := by
  induction items with
  | nil => simp
  | cons i items ih =>
    obtain ⟨⟨-, hnone⟩, hrest⟩ := List.forall_mem_cons.mp hbare
    cases items with
    | nil => simp
    | cons j items =>
      have hj : j.isComment = false := (hrest j (List.mem_cons_self ..)).1
      have hnext : Adjoins i j ↔ stray ≠ i.core := by
        rw [Adjoins, hj, eq_lone_iff hnone]
        exact ⟨fun h heq => Bool.false_ne_true (h heq.symm), fun h heq => absurd heq.symm h⟩
      show _ ↔ stray ∉ (i.core :: (j :: items).map core).dropLast
      rw [List.isChain_cons_cons, hnext, ih hrest, List.dropLast_cons_of_ne_nil (by simp),
        List.mem_cons, not_or]

/-- **The exception among items.**  Bare elements are found again exactly if no `&` on its own has
    another element behind it. -/
theorem settled_bares {items : List Item} (h : Settled items) :
    group (ungroup (bares items)) = bares items ↔ stray ∉ (cores items).dropLast := by
  rw [← map_core_bares, ← isChain_adjoins fun _ => mem_bares]
  constructor
  · intro hagain
    have hsettled := settled_group (ungroup (bares items))
    rw [hagain] at hsettled
    exact hsettled.adjoins
  · intro hadjoins
    refine group_ungroup_settled ⟨fun i hi => ?_, ?_, hadjoins⟩
    · obtain ⟨j, hj, rfl⟩ := List.mem_map.mp hi
      obtain ⟨hmem, hnot⟩ := List.mem_filter.mp hj
      cases h.made j hmem with
      | comment => cases hnot
      | element form made marked => exact .element form made marked (by rintro _ ⟨⟩)
    · rw [cores_bares]
      exact h.shallow

end Item

/-! ## What children strand -/

/-- Among the children an `&` has a comment behind it, in front of the form that it waits for;
    `waits` says that one waits already. -/
def Node.strandsMarker : Bool → List Node → Bool
  | _, [] => false
  | waits, c :: cs =>
      if c.isNoise then strandsMarker waits cs
      else if c.isComment then (waits && cs.any isForm) || strandsMarker false cs
      else strandsMarker (c == .atom "&" && !waits) cs

namespace Grouping

/-- The elements so far that have another one behind them once the children are taken in. -/
def passed (g : Grouping) (cs : List Node) : List (Node × Option String) :=
  if g.marker.isSome || cs.any Node.isForm then Item.cores g.items else (Item.cores g.items).tail

/-- Once the children are taken in, an `&` on its own has another element behind it. -/
def Strands (g : Grouping) (cs : List Node) : Prop :=
  Item.stray ∈ g.passed cs ∨ Node.strandsMarker g.marker.isSome cs = true

/-- **One child.**  What was stranded still is, and what will be still will. -/
theorem strands_step {g : Grouping} (hmarker : g.marker = none ∨ g.marker = some "&") (c : Node)
    (cs : List Node) : (g.step c).Strands cs ↔ g.Strands (c :: cs) := by
  rcases g.step_cases c with ⟨hnoise, hs⟩ | ⟨text, rfl, hs⟩ | ⟨rfl, hm, hs⟩ | ⟨hform, hm, hs⟩
  · -- Trivia changes neither the elements nor what waits.
    have hform : c.isForm = false := by simp [Node.isForm, hnoise]
    simp [hs, Strands, passed, Node.strandsMarker, hnoise, hform]
  · -- A comment ends the wait: the `&` is the last element, until a form follows.
    have hform : (Node.comment text).isForm = false := rfl
    have hmark : (g.flushMarker.addComment text).marker = none := by
      rw [marker_addComment, marker_flush]
    rw [hs, Strands, Strands, passed, passed, cores_addComment, hmark]
    rcases hmarker with hm | hm
    · have hflush : g.flushMarker = g := by rw [flushMarker, hm]
      simp [hflush, hm, hform, Node.strandsMarker, Node.isNoise, Node.isComment]
    · have hcores : Item.cores g.flushMarker.items = Item.stray :: Item.cores g.items := by
        rw [flushMarker, hm]
        rfl
      rw [hcores, hm]
      cases hany : cs.any Node.isForm <;>
        simp [hany, Node.strandsMarker, Node.isNoise, Node.isComment]
  · -- The `&` waits, so an element is going to follow, as it does behind any form.
    have hform : (Node.atom "&").isForm = true := rfl
    simp [hs, Strands, passed, hm, hform, Node.strandsMarker, Node.isNoise, Node.isComment]
  · obtain ⟨hnoise, hcomment⟩ := Node.isForm_iff.mp hform
    have htaken : (g.taken c, g.marker) ≠ Item.stray := by
      intro hstray
      injection hstray with hnode hmark
      exact hm (eq_of_spread hnode) hmark
    have hwaits : (c == .atom "&" && g.marker.isNone) = false := by
      by_cases hc : c = .atom "&"
      · simp [Option.isSome_iff_ne_none.mpr (hm hc)]
      · simp [hc]
    have hmark : (g.addElement c).marker = none := rfl
    rw [hs, Strands, Strands, passed, passed, cores_addElement g hform, hmark]
    cases hany : cs.any Node.isForm <;>
      simp [hany, Node.strandsMarker, hnoise, hcomment, hform, hwaits, htaken.symm]

/-- **All children.** Whether an `&` is stranded in the end can be told at any moment from the
    children that are left. -/
theorem strands_foldl (cs : List Node) {g : Grouping}
    (hmarker : g.marker = none ∨ g.marker = some "&") :
    (cs.foldl step g).Strands [] ↔ g.Strands cs := by
  induction cs generalizing g with
  | nil => rfl
  | cons c cs ih =>
    have hnext : (g.step c).marker = none ∨ (g.step c).marker = some "&" := by
      rcases g.step_cases c with ⟨-, hs⟩ | ⟨text, rfl, hs⟩ | ⟨rfl, -, hs⟩ | ⟨-, -, hs⟩
      · rw [hs]
        exact hmarker
      · rw [hs, marker_addComment, marker_flush]
        exact .inl rfl
      · rw [hs]
        exact .inr rfl
      · rw [hs]
        exact .inl rfl
    rw [List.foldl_cons, ih hnext, strands_step hmarker]

/-- In the end the elements with another one behind them are all but the last. -/
theorem dropLast_finish (g : Grouping) :
    (Item.cores g.finish).dropLast = (g.passed []).reverse := by
  have hflush : (Item.cores g.flushMarker.items).tail = g.passed [] := by
    unfold flushMarker passed
    cases g.marker with
    | none => rfl
    | some m => rfl
  rw [finish, Item.cores_reverse, List.dropLast_reverse, cores_discardFirst, ← hflush]
  cases Item.cores g.flushMarker.items <;> rfl

end Grouping

/-- **The exception among children.**  An `&` on its own has another element behind it exactly if a
    comment cut one off from its form. -/
theorem stray_group_iff (children : List Node) :
    Item.stray ∈ (Item.cores (Item.group children)).dropLast ↔
      Node.strandsMarker false children = true := by
  have hrun := Grouping.strands_foldl children (g := {}) (.inl rfl)
  have hstart : Grouping.Strands {} children ↔ Node.strandsMarker false children = true := by
    simp [Grouping.Strands, Grouping.passed]
  have hend : ∀ g : Grouping, g.Strands [] ↔ Item.stray ∈ g.passed [] := by
    simp [Grouping.Strands, Node.strandsMarker]
  rw [Item.group, Grouping.dropLast_finish, List.mem_reverse, ← hend, hrun, hstart]

/-- **Bare items are found again** exactly if no `&` among the children has a comment behind it and
    the form that it waits for behind the comment. -/
theorem group_bares (children : List Node) :
    Item.group (Item.ungroup (Item.bares (Item.group children))) =
        Item.bares (Item.group children) ↔
      Node.strandsMarker false children = false := by
  rw [Item.settled_bares (settled_group children), stray_group_iff, Bool.not_eq_true]

/-- Without the comment the `&` is the marker of the form behind it. -/
example :
    let items := Item.bares (Item.group [.atom "&", .comment ";c", .newline "\n", .atom "y"])
    items = [⟨.atom "&", none, none⟩, ⟨.atom "y", none, none⟩] ∧
      Item.group (Item.ungroup items) = [⟨.atom "y", some "&", none⟩] := by
  decide

end CljTidy
