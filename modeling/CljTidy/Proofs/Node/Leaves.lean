/-
  The leaves of a tree.

  From left to right, a tree is its leaf nodes and the signs around them: brackets, marks, and what
  is written for metadata.  Together they spell its text (`chars_leaves`).  The comments of a tree
  are those among its leaves, and there are none in a tree that contains none
  (`commentTexts_eq_nil`).
-/
import CljTidy.Proofs.Item.Grouping

namespace CljTidy

/-- A leaf of a tree: a leaf node, or a sign written for a bracket, a mark or metadata. -/
inductive Leaf
  | node (kind : LeafKind) (text : String)
  | sign (text : String)
  deriving DecidableEq

namespace Leaf

/-- The text of a leaf. -/
def text : Leaf → String
  | node _ text => text
  | sign text => text

/-- A leaf that is a node has the text of the node, -/
@[simp] theorem text_node (kind : LeafKind) (string : String) :
    (node kind string).text = string := rfl

/-- and a sign is its text. -/
@[simp] theorem text_sign (string : String) : (sign string).text = string := rfl

/-- A comment. -/
def isComment : Leaf → Bool
  | node .comment _ => true
  | _ => false

/-- A line break. -/
def isNewline : Leaf → Bool
  | node .newline _ => true
  | _ => false

/-- The text of a leaf that is a comment. -/
def comment? : Leaf → Option String
  | node .comment text => some text
  | _ => none

/-- A sign is no comment. -/
@[simp] theorem comment?_sign (text : String) : (sign text).comment? = none := rfl

end Leaf

/-- Leaves between a pair of brackets; documents and fragments are written without any. -/
def Bracket.enclose (b : Bracket) (leaves : List Leaf) : List Leaf :=
  if b.isCollection then .sign b.opening :: (leaves ++ [.sign b.closing]) else leaves

namespace Node

mutual

/-- The leaves of a node, from left to right. -/
def leaves : Node → List Leaf
  | .leaf kind text => [.node kind text]
  | .branch b children => b.enclose (leavesAll children)
  | .wrap mark child => .sign mark.spelling :: child.leaves
  | .annotated metadata target => .sign "^" :: (metadata.leaves ++ .sign " " :: target.leaves)
  | .unknown => []

/-- The leaves of nodes in a row. -/
def leavesAll : List Node → List Leaf
  | [] => []
  | node :: nodes => node.leaves ++ leavesAll nodes

end

/-- Leaves of nodes in a row. -/
@[simp] theorem leavesAll_append (xs ys : List Node) :
    leavesAll (xs ++ ys) = leavesAll xs ++ leavesAll ys := by
  induction xs with
  | nil => rfl
  | cons n ns ih => simp [leavesAll, ih]

/-- A collection has its brackets around the leaves of its children. -/
theorem leaves_branch {b : Bracket} (h : b.isCollection = true) (cs : List Node) :
    (branch b cs).leaves = .sign b.opening :: (leavesAll cs ++ [.sign b.closing]) := by
  rw [leaves, Bracket.enclose, if_pos h]

mutual

/-- The leaves of a node spell its text. -/
theorem chars_leaves : (n : Node) → n.leaves.flatMap (fun l => l.text.toList) = n.text.toList
  | .leaf kind text => by simp [leaves, Node.text]
  | .branch b cs => by
      have ih := chars_leavesAll cs
      cases b <;> simp [leaves, Bracket.enclose, Bracket.isCollection, Node.text, ih,
        Bracket.opening, Bracket.closing]
  | .wrap m n => by simp [leaves, Node.text, chars_leaves n]
  | .annotated m t => by simp [leaves, Node.text, chars_leaves m, chars_leaves t]
  | .unknown => rfl

/-- The leaves of nodes in a row spell their text. -/
theorem chars_leavesAll :
    (ns : List Node) → (leavesAll ns).flatMap (fun l => l.text.toList) = (textAll ns).toList
  | [] => rfl
  | n :: ns => by simp [leavesAll, textAll, chars_leaves n, chars_leavesAll ns]

end

/-! ## Comments -/

/-- The texts of the comments anywhere in a node, from left to right. -/
def commentTexts (n : Node) : List String := n.leaves.filterMap Leaf.comment?

/-- The texts of the comments anywhere in nodes in a row. -/
def commentTextsAll (ns : List Node) : List String := ns.flatMap commentTexts

@[simp] theorem commentTextsAll_nil : commentTextsAll [] = [] := rfl

@[simp] theorem commentTextsAll_cons (n : Node) (ns : List Node) :
    commentTextsAll (n :: ns) = n.commentTexts ++ commentTextsAll ns := rfl

/-- Comments of nodes in a row. -/
@[simp] theorem commentTextsAll_append (xs ys : List Node) :
    commentTextsAll (xs ++ ys) = commentTextsAll xs ++ commentTextsAll ys := by
  simp [commentTextsAll]

/-- The comments of nodes in a row are those among their leaves. -/
theorem filterMap_leavesAll (ns : List Node) :
    (leavesAll ns).filterMap Leaf.comment? = commentTextsAll ns := by
  induction ns with
  | nil => rfl
  | cons n ns ih => rw [leavesAll, List.filterMap_append, ih]; rfl

/-- A comment is one, -/
@[simp] theorem commentTexts_comment (text : String) : (comment text).commentTexts = [text] := rfl

/-- an atom has none, -/
@[simp] theorem commentTexts_atom (text : String) : (atom text).commentTexts = [] := rfl

/-- and neither has trivia. -/
theorem commentTexts_noise {n : Node} (h : n.isNoise = true) : n.commentTexts = [] := by
  obtain ⟨kind, text, rfl⟩ := leaf_of_noise h
  cases kind <;> first | rfl | cases h

/-- Brackets have no comments, -/
@[simp] theorem commentTexts_branch (b : Bracket) (cs : List Node) :
    (branch b cs).commentTexts = commentTextsAll cs := by
  rw [commentTexts, leaves, Bracket.enclose]
  split
  · simp [List.filterMap_cons, filterMap_leavesAll]
  · exact filterMap_leavesAll cs

/-- nor have marks -/
@[simp] theorem commentTexts_wrap (m : Mark) (n : Node) :
    (wrap m n).commentTexts = n.commentTexts := rfl

/-- or the caret of metadata. -/
@[simp] theorem commentTexts_annotated (m t : Node) :
    (annotated m t).commentTexts = m.commentTexts ++ t.commentTexts := by
  simp [commentTexts, leaves, List.filterMap_cons]

@[simp] theorem commentTexts_unknown : unknown.commentTexts = [] := rfl

/-- A node has no comments exactly if none occurs in it. -/
theorem commentTexts_eq_nil {n : Node} : n.commentTexts = [] ↔ n.containsComment = false := by
  induction n using Node.induction with
  | leaf kind text => cases kind <;> simp [containsComment, commentTexts, leaves, Leaf.comment?]
  | branch b cs ih =>
    rw [containsComment, anyContainsComment_eq, List.any_eq_false, commentTexts_branch,
      commentTextsAll, List.flatMap_eq_nil_iff]
    exact forall₂_congr fun c hc => (ih c hc).trans Bool.eq_false_iff
  | wrap m n ih => exact ih
  | annotated m t ihm iht =>
    rw [containsComment, Bool.or_eq_false_iff, commentTexts_annotated, List.append_eq_nil_iff, ihm,
      iht]
  | unknown => exact iff_of_true rfl rfl

/-- So this is a way to tell the comments in a node. -/
theorem tells_commentTexts : TellsComments commentTexts :=
  ⟨fun _ => commentTexts_noise, commentTexts_comment, fun _ => rfl⟩

end Node

end CljTidy
