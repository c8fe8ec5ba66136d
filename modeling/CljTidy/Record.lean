/-
  Pairing items: maps, binding vectors and clauses.

  Items are paired from the left.  A comment between a key and its value, also one that trails the
  key, goes in front of the pair; a value keeps its own trailing comment.  A key without a value is
  an orphan and keeps everything.
-/
import CljTidy.Item.Basic

namespace CljTidy

/-- A line of a paired form: a key with its value, a comment, or a key without a value. -/
inductive Record
  | pair (key value : Item)
  | comment (text : String)
  | orphan (item : Item)
  deriving Repr, DecidableEq

namespace Record

/-- The trailing comment of a key as a record of its own. -/
def trailing (item : Item) : List Record := (item.comment.map Record.comment).toList

/-- Pairs up items; `waiting` is a key without its value yet, with the comments since then. -/
def pairFrom : Option (Item × List Record) → List Item → List Record
  | none, [] => []
  | some (key, held), [] => .orphan key :: held
  | none, item :: items =>
      if item.isComment then .comment item.element.text :: pairFrom none items
      else pairFrom (some (item, [])) items
  | some (key, held), item :: items =>
      if item.isComment then pairFrom (some (key, held ++ [.comment item.element.text])) items
      else trailing key ++ held ++ .pair key.bare item :: pairFrom none items

/-- The records of a list of items. -/
def ofItems (items : List Item) : List Record := pairFrom none items

/-- The record is a comment. -/
def isComment : Record → Bool
  | comment _ => true
  | _ => false

/-- A record written out as items. -/
def items : Record → List Item
  | pair key value => [key, value]
  | comment text => [⟨.comment text, none, none⟩]
  | orphan item => [item]

end Record

end CljTidy
