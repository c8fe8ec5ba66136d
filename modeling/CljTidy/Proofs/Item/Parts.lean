/-
  Grouping loses nothing, makes nothing up and moves nothing.

  The parts of an item are its marker, its element and its trailing comment, in the order in which
  they are written.  Read one item after the other, the parts are the children without trivia, once
  the discards in front of each are taken off (`parts_group`): what grouping does to discards is to
  hand them on.  It hands on all of them, and in the end none but the last element has more than
  one.

  The order is carried by `parts_step`: a child puts itself behind the parts so far, where an `&`
  that waits already counts as the last part.  That is so because a comment ends the wait before it
  is taken in.  The number of discards is the tally of what the elements hold (`length_group`).
-/
import CljTidy.Proofs.Item.Settled
import CljTidy.Proofs.Item.Tally
import Mathlib

namespace CljTidy

/-! ## The parts of items -/

namespace Item

/-- What an item is made of, in the order in which it is written. -/
def parts (i : Item) : List Node :=
  i.marker.toList.map .atom ++ i.element :: i.comment.toList.map .comment

/-- A comment behind an element that has none is one more part. -/
theorem parts_attach {i : Item} (h : i.comment = none) (text : String) :
    ({ i with comment := some text } : Item).parts = i.parts ++ [.comment text] := by
  obtain ⟨element, marker, comment⟩ := i
  obtain rfl : comment = none := h
  simp [parts]

end Item

/-! ## One child -/

namespace Grouping

/-- The parts of the items so far, and an `&` that waits. -/
def parts (g : Grouping) : List Node :=
  g.items.reverse.flatMap Item.parts ++ g.marker.toList.map .atom

theorem parts_flush (g : Grouping) : g.flushMarker.parts = g.parts := by
  obtain ⟨items, marker, owed, broken⟩ := g
  cases marker with
  | none => rfl
  | some m => simp [flushMarker, parts, Item.parts]

/-- In the end the parts are those of the items. -/
theorem parts_flushed (g : Grouping) :
    g.flushMarker.items.reverse.flatMap Item.parts = g.parts := by
  rw [← parts_flush, parts, marker_flush]
  exact (List.append_nil _).symm

/-- A comment is one more part, in an item of its own or behind the last one. -/
theorem parts_addComment {g : Grouping} (h : g.marker = none) (text : String) :
    (g.addComment text).parts = g.parts ++ [.comment text] := by
  obtain ⟨items, marker, owed, broken⟩ := g
  obtain rfl : marker = none := h
  cases items with
  | nil => rfl
  | cons i items =>
    simp only [addComment]
    split
    · rename_i hattach
      have hnone : i.comment = none := by
        simp only [Bool.and_eq_true, Option.isNone_iff_eq_none] at hattach
        exact hattach.2
      simp [parts, Item.parts_attach hnone]
    · simp [parts, Item.parts]

/-- An element is one more part, with the discards it is left with. -/
theorem parts_addElement (g : Grouping) (c : Node) :
    (g.addElement c).parts = g.parts ++ [g.taken c] := by
  simp [addElement, parts, Item.parts, taken, Node.spread]

/-- **One child.**  Trivia aside, a child puts itself behind the parts so far. -/
theorem parts_step (g : Grouping) (c : Node) :
    (g.step c).parts.map Node.discarded =
      g.parts.map Node.discarded ++ ([c].filter fun n => !n.isNoise).map Node.discarded := by
  rcases g.step_cases c with ⟨hnoise, hs⟩ | ⟨text, rfl, hs⟩ | ⟨rfl, hm, hs⟩ | ⟨hform, -, hs⟩
  · rw [hs, List.filter_singleton, hnoise]
    exact (List.append_nil _).symm
  · rw [hs, parts_addComment (marker_flush g), parts_flush, List.map_append]
    rfl
  · rw [hs]
    simp [parts, hm, Node.isNoise]
  · rw [hs, parts_addElement, List.map_append, List.map_singleton, taken,
      Node.spread_induction Node.discarded fun _ => rfl, List.filter_singleton,
      (Node.isForm_iff.mp hform).1]
    rfl

theorem parts_foldl (children : List Node) (g : Grouping) :
    (children.foldl step g).parts.map Node.discarded =
      g.parts.map Node.discarded ++ (children.filter fun n => !n.isNoise).map Node.discarded := by
  induction children generalizing g with
  | nil => exact (List.append_nil _).symm
  | cons c cs ih =>
    rw [List.foldl_cons, ih, parts_step, List.append_assoc, ← List.map_append, ← List.filter_append,
      List.singleton_append]

/-- Discards put back change only how many there are. -/
theorem parts_discardFirst (k : Nat) (items : List Item) :
    ((discardFirst k items).reverse.flatMap Item.parts).map Node.discarded =
      (items.reverse.flatMap Item.parts).map Node.discarded := by
  induction items with
  | nil => rfl
  | cons i items ih =>
    unfold discardFirst
    split
    · simp only [List.reverse_cons, List.flatMap_append, List.map_append, ih]
    · have helement := Node.discardTimes_induction Node.discarded (fun _ => rfl) i.element k
      simp [Item.parts, helement]

end Grouping

/-! ## Discards in front -/

section

variable {α : Type} {f : Node → List α} (hleaf : ∀ kind text, f (.leaf kind text) = [])

include hleaf

/-- If leaves hold nothing, the parts hold what the elements hold. -/
theorem Item.flatMap_parts (items : List Item) :
    (items.flatMap Item.parts).flatMap f = Item.holdings f items := by
  induction items with
  | nil => rfl
  | cons i items ih =>
    have hmarker : i.marker.toList.flatMap (fun m => f (.atom m)) = [] := by
      cases i.marker <;> simp [hleaf]
    have hcomment : i.comment.toList.flatMap (fun text => f (.comment text)) = [] := by
      cases i.comment <;> simp [hleaf]
    have hparts : i.parts.flatMap f = f i.element := by
      simp [Item.parts, List.flatMap_map, hmarker, hcomment]
    have hone : Item.holdings f [i] = f i.element := by
      cases hi : i.isComment with
      | true =>
        obtain ⟨text, htext⟩ := Node.eq_comment hi
        rw [Item.holdings_comment f hi, htext, hleaf]
      | false => simp [Item.holdings_element f hi, Item.holding, Item.core, hmarker]
    rw [List.flatMap_cons, List.flatMap_append, ih, hparts, ← hone, ← Item.holdings_append]
    rfl

/-- If leaves hold nothing, what is not trivia holds what forms hold. -/
theorem Node.flatMap_solid (children : List Node) :
    (children.filter fun c => !c.isNoise).flatMap f = (children.filter isForm).flatMap f := by
  induction children with
  | nil => rfl
  | cons c cs ih =>
    rw [List.filter_cons, List.filter_cons]
    rcases c.noise_or_comment_or_form with hnoise | ⟨text, rfl⟩ | hform
    · have hform : c.isForm = false := by simp [isForm, hnoise]
      simpa [hnoise, hform] using ih
    · have hcomment : (comment text).isForm = false := rfl
      simpa [isNoise, hcomment, hleaf] using ih
    · simpa [(isForm_iff.mp hform).1, hform] using ih

end

/-- The discards in front of a form, one by one. -/
def Node.discardsInFront (n : Node) : List Unit := List.replicate n.discardDepth ()

theorem Node.sum_discardDepth (ns : List Node) :
    (ns.map discardDepth).sum = (ns.flatMap discardsInFront).length := by
  rw [List.length_flatMap]
  exact congrArg List.sum (List.map_congr_left fun n _ => List.length_replicate.symm)

/-! ## All children -/

/-- **Grouping keeps the parts.**  The markers, elements and comments of the items are the children
    without trivia, in order and discards aside; there are as many discards in front of them as in
    front of the children; and of the elements only the last has more than one. -/
theorem parts_group (children : List Node) :
    let parts := (Item.group children).flatMap Item.parts
    let solid := children.filter fun c => !c.isNoise
    parts.map Node.discarded = solid.map Node.discarded ∧
      (parts.map Node.discardDepth).sum = (solid.map Node.discardDepth).sum ∧
      ∀ i ∈ (Item.elements (Item.group children)).dropLast, i.element.discardDepth ≤ 1 := by
  refine ⟨?order, ?count, ?last⟩
  case order =>
    rw [Item.group, Grouping.finish, Grouping.parts_discardFirst, Grouping.parts_flushed,
      Grouping.parts_foldl]
    rfl
  case count =>
    have hleaf : ∀ kind text, (Node.leaf kind text).discardsInFront = [] := fun _ _ => rfl
    have hadds : ∀ n, (Node.discard n).discardsInFront.length = n.discardsInFront.length + 1 := by
      intro n
      simp [Node.discardsInFront, Node.discardDepth]
    rw [Node.sum_discardDepth, Node.sum_discardDepth, Item.flatMap_parts hleaf,
      Node.flatMap_solid hleaf, length_group hadds]
  case last =>
    intro i hi
    have hshallow := (settled_group children).shallow
    rw [Item.Shallow, Item.cores, ← List.map_dropLast] at hshallow
    exact hshallow i.core (List.mem_map_of_mem hi)

end CljTidy
