/-
  A node on a single line: one space between elements, no line breaks, no comments.

  The children are flattened first and grouped then; flattening changes neither which children are
  trivia, comments or `&` nor how many discards stand in front of them, so the items are the same
  as if they were grouped first.  Trailing comments are dropped, so this is for nodes without any.
-/
import CljTidy.Item.Group

namespace CljTidy

/-- The nodes of an item on a line: its marker and its element. -/
def Item.inlineNodes (item : Item) : List Node :=
  (match item.marker with
    | some marker => [.atom marker, .space " "]
    | none => []) ++ [item.element]

/-- Items on a line, with one space between them. -/
def Item.inline : List Item → List Node
  | [] => []
  | [item] => item.inlineNodes
  | item :: items => item.inlineNodes ++ .space " " :: Item.inline items

mutual

/-- The node on a single line. -/
def Node.flatten : Node → Node
  | .branch bracket children =>
      if bracket.isCollection then
        .branch bracket (Item.inline (Item.group (Node.flattenAll children)))
      else .branch bracket children
  | .wrap mark child => .wrap mark child.flatten
  | .annotated metadata target => .annotated metadata.flatten target.flatten
  | node => node

/-- Each node on a single line. -/
def Node.flattenAll : List Node → List Node
  | [] => []
  | node :: nodes => node.flatten :: Node.flattenAll nodes

end

end CljTidy
