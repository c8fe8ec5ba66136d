/-
  Items: the elements of a collection with what belongs to them.

  An item is an element, the `&` in front of it if there is one, and the comment behind it on the
  same line.  A comment on a line of its own is an item too, with the comment as its element.
  Writing items out again (`ungroup`) puts one space between elements and a line break behind every
  comment.
-/
import CljTidy.Node.Basic

namespace CljTidy

/-- An element with its variadic marker and its trailing comment. -/
structure Item where
  element : Node
  marker : Option String := none
  comment : Option String := none
  deriving Repr, DecidableEq, Inhabited

namespace Item

/-- The item is a comment on a line of its own. -/
def isComment (item : Item) : Bool := item.element.isComment

/-- The item without its trailing comment. -/
def bare (item : Item) : Item := { item with comment := none }

/-- The items that are not comments. -/
def elements (items : List Item) : List Item := items.filter fun item => !item.isComment

/-- Comments in front of the head, the head, and the items behind it. -/
def splitHead (items : List Item) : List Item × Option Item × List Item :=
  let behind := items.dropWhile isComment
  (items.takeWhile isComment, behind.head?, behind.tail)

/-! ## Items as nodes -/

/-- The nodes of one item; a comment, its own or trailing, ends with a line break. -/
def nodes (item : Item) : List Node :=
  (match item.marker with
    | some marker => [.atom marker, .space " "]
    | none => []) ++
  item.element ::
    (if item.isComment then [.newline "\n"]
    else
      match item.comment with
      | some comment => [.space " ", .comment comment, .newline "\n"]
      | none => [])

/-- The item does not end with a line break when written out. -/
def leavesLineOpen (item : Item) : Bool :=
  !item.isComment && item.comment.isNone && !item.element.isNewline

/-- What separates an item from the one before it: a comment gets a line of its own. -/
def separator (item : Item) : Node := if item.isComment then .newline "\n" else .space " "

/-- The nodes of items in a row; `lineOpen` says that something stands on the line already. -/
def ungroupFrom : Bool → List Item → List Node
  | _, [] => []
  | lineOpen, item :: items =>
      (if lineOpen then [item.separator] else []) ++ item.nodes
        ++ ungroupFrom item.leavesLineOpen items

/-- Children that group into the given items. -/
def ungroup (items : List Item) : List Node := ungroupFrom false items

end Item

end CljTidy
