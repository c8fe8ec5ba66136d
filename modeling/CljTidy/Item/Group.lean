/-
  Grouping the children of a collection into items.

  The children are passed once from left to right.  Trivia is dropped, but a line break decides
  whether a comment trails the item before it or stands alone.  An `&` waits for the element behind
  it.  Stacked discards are spread out: `#_ #_ a b` discards `a` and `b`, so it becomes one
  discard on each; discards with nothing left to discard go back onto the last element.
-/
import CljTidy.Item.Basic

namespace CljTidy

/-! ## Discards -/

/-- How many discards stand in front of a form. -/
def Node.discardDepth : Node → Nat
  | .discard child => child.discardDepth + 1
  | _ => 0

/-- The form behind its discards. -/
def Node.discarded : Node → Node
  | .discard child => child.discarded
  | node => node

/-- A form with `n` more discards in front. -/
def Node.discardTimes (node : Node) : Nat → Node
  | 0 => node
  | n + 1 => .discard (node.discardTimes n)

/-! ## One pass over the children -/

/-- The items so far, last one first, an `&` that waits for its element, the number of discards that
    wait for an element, and whether a line break came behind the last element. -/
structure Grouping where
  items : List Item := []
  marker : Option String := none
  owed : Nat := 0
  lineBroken : Bool := true

namespace Grouping

/-- An `&` that found no element becomes an element itself. -/
def flushMarker (g : Grouping) : Grouping :=
  match g.marker with
  | some marker => { g with items := ⟨.atom marker, none, none⟩ :: g.items, marker := none }
  | none => g

/-- A comment trails the last item if it is on the same line and has no comment yet. -/
def addComment (g : Grouping) (text : String) : Grouping :=
  match g.items with
  | item :: items =>
      if !g.lineBroken && !item.isComment && item.comment.isNone then
        { g with items := { item with comment := some text } :: items }
      else { g with items := ⟨.comment text, none, none⟩ :: g.items }
  | [] => { g with items := [⟨.comment text, none, none⟩] }

/-- An element takes the waiting `&` and one of the waiting discards; those it brings along beyond
    the first are left for the elements behind it. -/
def addElement (g : Grouping) (node : Node) : Grouping :=
  let depth := node.discardDepth + (if g.owed = 0 then 0 else 1)
  let element := if depth = 0 then node else .discard node.discarded
  { items := ⟨element, g.marker, none⟩ :: g.items
    marker := none
    owed := (g.owed - 1) + (depth - 1)
    lineBroken := false }

/-- Takes in one more child. -/
def step (g : Grouping) : Node → Grouping
  | .newline _ => { g with lineBroken := true }
  | .space _ => g
  | .comma _ => g
  | .comment text => g.flushMarker.addComment text
  | .atom text =>
      if text = "&" ∧ g.marker = none then { g with marker := some text, lineBroken := false }
      else g.addElement (.atom text)
  | node => g.addElement node

/-- Puts `n` discards onto the first item that is not a comment. -/
def discardFirst (n : Nat) : List Item → List Item
  | [] => []
  | item :: items =>
      if item.isComment then item :: discardFirst n items
      else { item with element := item.element.discardTimes n } :: items

/-- The items once all children are taken in. -/
def finish (g : Grouping) : List Item := (discardFirst g.owed g.flushMarker.items).reverse

end Grouping

/-- The items of a list of children. -/
def Item.group (children : List Node) : List Item :=
  (children.foldl Grouping.step {}).finish

end CljTidy
