/-
  Discards are counted.

  Grouping spreads stacked discards out, but it drops none and adds none: if a discard makes what a
  node holds longer by one, the elements and markers hold as much as the forms among the children
  (`length_group`).  What carries the pass is what is held so far with the discards that wait; they
  wait only behind an element, so in the end there is one to put them back onto.
-/
import CljTidy.Proofs.Item.Grouping

namespace CljTidy

section

variable {α : Type} {f : Node → List α} (hf : ∀ n, (f (.discard n)).length = (f n).length + 1)

include hf

/-! ## Forms behind discards -/

/-- Every discard over a node counts as one more. -/
theorem Node.length_discarded (n : Node) :
    (f n).length = (f n.discarded).length + n.discardDepth := by
  induction n using Node.discarded.induct with
  | case1 child ih =>
    rw [hf, ih, Node.discarded, Node.discardDepth]
    omega
  | case2 n hn =>
    rw [Node.discarded, Node.discardDepth_eq_zero hn]
    · rfl
    · exact hn

/-- So does every discard put back. -/
theorem Node.length_discardTimes (n : Node) (k : Nat) :
    (f (n.discardTimes k)).length = (f n).length + k := by
  induction k with
  | zero => rfl
  | succ k ih =>
    rw [Node.discardTimes, hf, ih]
    omega

/-- What is spread has one discard, its own or one that waited, or it had none. -/
theorem Node.length_spread (depth : Nat) (n : Node) :
    (f (Node.spread depth n)).length =
      (f n.discarded).length + if depth = 0 then n.discardDepth else 1 := by
  unfold Node.spread
  split
  · exact Node.length_discarded hf n
  · exact hf n.discarded

/-! ## One child -/

omit hf in
/-- How much is held so far, with the discards that wait. -/
def Grouping.tally (f : Node → List α) (g : Grouping) : Nat := (g.holdings f).length + g.owed

/-- A form that is taken adds what it holds. -/
theorem Grouping.tally_addElement (g : Grouping) {c : Node} (hc : c.isForm = true) :
    (g.addElement c).tally f = g.tally f + (f c).length := by
  have hcount := Node.length_discarded hf c
  rw [Grouping.tally, Grouping.tally, Grouping.owed_addElement, Grouping.holdings_addElement f g hc,
    List.length_append, Grouping.taken, Node.length_spread hf, hcount]
  -- Of a discard that waits and of those brought along, one is used and the others wait.
  by_cases hwaits : g.owed = 0
  · rw [if_pos hwaits]
    split <;> omega
  · rw [if_neg hwaits, if_neg (by omega)]
    omega

/-- A child adds what it holds, if it is a form. -/
theorem Grouping.tally_step (g : Grouping) (c : Node) :
    (g.step c).tally f = g.tally f + if c.isForm = true then (f c).length else 0 := by
  rcases g.step_cases c with ⟨hnoise, hs⟩ | ⟨text, rfl, hs⟩ | ⟨rfl, hm, hs⟩ | ⟨hform, -, hs⟩
  · have hnot : c.isForm = false := by simp [Node.isForm, hnoise]
    rw [hs, if_neg (Bool.eq_false_iff.mp hnot)]
    rfl
  · rw [hs, Grouping.tally, Grouping.holdings_addComment, Grouping.holdings_flush,
      Grouping.owed_addComment, if_neg (by simp [Node.isForm, Node.isComment])]
    rfl
  · rw [hs, if_pos (show (Node.atom "&").isForm = true from rfl)]
    simp [Grouping.tally, Grouping.holdings, hm]
    omega
  · rw [hs, if_pos hform, Grouping.tally_addElement hf g hform]

omit hf in
/-- Discards wait only behind an element. -/
def Grouping.Repays (g : Grouping) : Prop := g.owed ≠ 0 → Item.cores g.items ≠ []

omit hf in
/-- If discards wait, there is an element to put them back onto, an `&` that waits aside. -/
theorem Grouping.Repays.flush {g : Grouping} (h : g.Repays) (howed : g.owed ≠ 0) :
    Item.cores g.flushMarker.items ≠ [] := by
  unfold Grouping.flushMarker
  split
  · rw [Item.cores_cons_element rfl]
    exact List.cons_ne_nil _ _
  · exact h howed

omit hf in
/-- Taking in a child keeps an element in front of the discards that wait. -/
theorem Grouping.Repays.step {g : Grouping} (h : g.Repays) (c : Node) : (g.step c).Repays := by
  rcases g.step_cases c with ⟨-, hs⟩ | ⟨text, rfl, hs⟩ | ⟨rfl, -, hs⟩ | ⟨hform, -, hs⟩
  · rw [hs]
    exact h
  · rw [hs]
    intro howed
    rw [Grouping.owed_addComment] at howed
    rw [Grouping.cores_addComment]
    exact h.flush howed
  · rw [hs]
    exact h
  · rw [hs]
    intro _
    rw [Grouping.cores_addElement g hform]
    exact List.cons_ne_nil _ _

/-! ## All children -/

/-- Discards that are put back onto an element count. -/
theorem length_discardFirst {k : Nat} {items : List Item} (h : k ≠ 0 → Item.cores items ≠ []) :
    (Item.holdings f (Grouping.discardFirst k items).reverse).length =
      (Item.holdings f items.reverse).length + k := by
  simp only [Item.holdings, Item.cores_reverse, Grouping.cores_discardFirst]
  cases hcores : Item.cores items with
  | nil =>
    obtain rfl : k = 0 := Decidable.byContradiction fun hk => h hk hcores
    rfl
  | cons c cs =>
    simp only [List.reverse_cons, List.flatMap_append, List.flatMap_cons, List.flatMap_nil,
      List.append_nil, List.length_append, Item.holding, Node.length_discardTimes hf]
    omega

/-- **Discards are counted.**  The items hold as much as the forms among the children. -/
theorem length_group (children : List Node) :
    (Item.holdings f (Item.group children)).length =
      ((children.filter Node.isForm).flatMap f).length := by
  have hrepays : (children.foldl Grouping.step {}).Repays :=
    Grouping.foldl_induction (fun h => absurd rfl h) fun _ c _ h => h.step c
  have htally : ∀ (cs : List Node) (g : Grouping), (cs.foldl Grouping.step g).tally f =
      g.tally f + ((cs.filter Node.isForm).flatMap f).length := by
    intro cs
    induction cs with
    | nil => exact fun _ => rfl
    | cons c cs ih =>
      intro g
      rw [List.foldl_cons, ih, Grouping.tally_step hf, List.filter_cons, Nat.add_assoc]
      split
      · rw [List.flatMap_cons, List.length_append]
      · rw [Nat.zero_add]
  have hall := htally children {}
  rw [Item.group, Grouping.finish]
  generalize children.foldl Grouping.step {} = g at hrepays hall
  rw [length_discardFirst hf hrepays.flush, Grouping.holdings_flushed]
  exact hall.trans (Nat.zero_add _)

end

end CljTidy
