/-
  The code of a tree.

  A tree is stripped of the trivia and the comments among its children; what is left is its code.
  Code may be compared without its discards, and with the number of them.
-/
import CljTidy.Proofs.Node.Lacks

namespace CljTidy

namespace Node

mutual

/-- The node without trivia and comments among children. -/
def strip : Node → Node
  | .branch b children => .branch b (stripAll children)
  | .wrap mark child => .wrap mark child.strip
  | .annotated metadata target => .annotated metadata.strip target.strip
  | node => node

/-- The forms among nodes, each one stripped. -/
def stripAll : List Node → List Node
  | [] => []
  | node :: nodes => if node.isForm then node.strip :: stripAll nodes else stripAll nodes

end

mutual

/-- The node with every discarded form in the place of its discard. -/
def withoutDiscards : Node → Node
  | .discard child => child.withoutDiscards
  | .branch b children => .branch b (withoutDiscardsAll children)
  | .wrap mark child => .wrap mark child.withoutDiscards
  | .annotated metadata target => .annotated metadata.withoutDiscards target.withoutDiscards
  | node => node

/-- Each node without discards. -/
def withoutDiscardsAll : List Node → List Node
  | [] => []
  | node :: nodes => node.withoutDiscards :: withoutDiscardsAll nodes

end

mutual

/-- The number of discards in a node. -/
def discards : Node → Nat
  | .discard child => child.discards + 1
  | .branch _ children => discardsAll children
  | .wrap _ child => child.discards
  | .annotated metadata target => metadata.discards + target.discards
  | _ => 0

/-- The number of discards in nodes. -/
def discardsAll : List Node → Nat
  | [] => 0
  | node :: nodes => node.discards + discardsAll nodes

end

/-- The code of children is the code of the forms among them. -/
theorem stripAll_eq (ns : List Node) : stripAll ns = (ns.filter isForm).map strip := by
  induction ns with
  | nil => rfl
  | cons n ns ih =>
    rw [stripAll, List.filter_cons, ih]
    split <;> rfl

theorem withoutDiscardsAll_eq (ns : List Node) : withoutDiscardsAll ns = ns.map withoutDiscards := by
  induction ns with
  | nil => rfl
  | cons n ns ih => rw [withoutDiscardsAll, ih, List.map_cons]

/-- The discards in the code of a node, one by one. -/
def discardsHeld (n : Node) : List Unit := List.replicate n.strip.discards ()

theorem length_discardsHeld (n : Node) : n.discardsHeld.length = n.strip.discards :=
  List.length_replicate

/-- Discards in children are those in the forms among them. -/
theorem discardsAll_stripAll (ns : List Node) :
    discardsAll (stripAll ns) = ((ns.filter isForm).flatMap discardsHeld).length := by
  rw [stripAll_eq]
  induction ns.filter isForm with
  | nil => rfl
  | cons n ns ih =>
    rw [List.map_cons, discardsAll, ih, List.flatMap_cons, List.length_append, length_discardsHeld]

/-- Only a discard gives way to its form. -/
theorem withoutDiscards_wrap {m : Mark} (hm : m ≠ .discard) (n : Node) :
    (wrap m n).withoutDiscards = .wrap m n.withoutDiscards := by
  cases m <;> first | rfl | exact absurd rfl hm

/-- A mark counts as one more if it is a discard. -/
theorem discards_wrap (m : Mark) (n : Node) :
    (wrap m n).discards = n.discards + if m = .discard then 1 else 0 := by
  cases m <;> rfl

/-! ## The same code -/

/-- Nodes with the same code: apart from discards, in the number of discards, and altogether unless
    discards are stacked in the second node. -/
structure SameCode (m n : Node) : Prop where
  apart : m.strip.withoutDiscards = n.strip.withoutDiscards
  count : m.strip.discards = n.strip.discards
  whole : n.lacks stacksDiscards = true → m.strip = n.strip

namespace SameCode

/-- Nodes with equal code have the same code in all three ways. -/
theorem of_strip {m n : Node} (h : m.strip = n.strip) : SameCode m n :=
  ⟨congrArg withoutDiscards h, congrArg discards h, fun _ => h⟩

/-- A mark over nodes with the same code: if it is a discard, the nodes below take its place on
    both sides. -/
theorem wrap {m n : Node} (h : SameCode m n) (mark : Mark) :
    SameCode (.wrap mark m) (.wrap mark n) := by
  constructor
  · by_cases hmark : mark = .discard
    · subst hmark
      exact h.apart
    · rw [strip, strip, withoutDiscards_wrap hmark, withoutDiscards_wrap hmark, h.apart]
  · rw [strip, strip, discards_wrap, discards_wrap, h.count]
  · intro hlacks
    rw [strip, strip, h.whole (lacks_wrap.mp hlacks).2]

/-- Metadata and target keep the same code apart from each other. -/
theorem annotated {m n s t : Node} (h : SameCode m n) (ht : SameCode s t) :
    SameCode (.annotated m s) (.annotated n t) := by
  constructor
  · simp only [strip, withoutDiscards, h.apart, ht.apart]
  · simp only [strip, discards, h.count, ht.count]
  · intro hlacks
    obtain ⟨-, hn, ht'⟩ := lacks_annotated.mp hlacks
    rw [strip, strip, h.whole hn, ht.whole ht']

/-- Branches have the same code if the forms among their children have. -/
theorem branch {b : Bracket} {cs ds : List Node}
    (hapart : (cs.filter isForm).map (fun n => n.strip.withoutDiscards) =
      (ds.filter isForm).map fun n => n.strip.withoutDiscards)
    (hcount : ((cs.filter isForm).flatMap discardsHeld).length =
      ((ds.filter isForm).flatMap discardsHeld).length)
    (hwhole : (∀ d ∈ ds, d.lacks stacksDiscards = true) →
      (cs.filter isForm).map strip = (ds.filter isForm).map strip) :
    SameCode (.branch b cs) (.branch b ds) := by
  constructor
  · simp only [strip, withoutDiscards, withoutDiscardsAll_eq, stripAll_eq, List.map_map]
    exact congrArg (Node.branch b) hapart
  · rw [strip, strip, discards, discards, discardsAll_stripAll, discardsAll_stripAll, hcount]
  · intro hlacks
    rw [strip, strip, stripAll_eq, stripAll_eq, hwhole (lacks_branch.mp hlacks).2]

end SameCode

end Node

end CljTidy
