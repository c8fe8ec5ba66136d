/-
  Layouts for elements in special places: on a single line, as one arity of a function, as a vector
  of bindings, as a clause of a namespace declaration.  Each of them falls back on `lay` when the
  element does not have the expected form.
-/
import CljTidy.Layout.Form
import CljTidy.Namespace

namespace CljTidy.Layout

/-- The comments in front of the head. -/
def leadingComments (leading : List Item) : List String := leading.map fun item => item.element.text

/-- On a single line, unless there is a comment inside. -/
def flat (lay : Lay) : Lay := fun column node =>
  if node.containsComment then lay column node else { node := node.flatten }

/-- One arity `([params] body ...)`: the body one item to a line, one column inside the bracket. -/
def arity (lay : Lay) : Lay := fun column node =>
  match node with
  | .list children =>
      match Item.splitHead (Item.group children) with
      | (leading, some head, items) =>
          if head.element.isVector then
            (call lay lay lay { bodyColumn := some (column + 1) } column head items).withLeading
              (leadingComments leading)
          else lay column node
      | _ => lay column node
  | _ => lay column node

/-- A vector of bindings: one pair to a line. -/
def bindings (lay : Lay) : Lay := fun column node =>
  match node with
  | .vector children => pairs lay column .vector children
  | _ => lay column node

/-- A clause of a namespace declaration: entries of a require or import below each other, each on a
    single line; any other clause on a single line as a whole. -/
def nsClause (lay : Lay) : Lay := fun column node =>
  match node with
  | .list children =>
      match Item.splitHead (Item.group children) with
      | (leading, some head, entries) =>
          if head.element.isKeyword then
            if Namespace.ClauseKind.ofKeyword head.element.text = .other then flat lay column node
            else
              (call lay (flat lay) (flat lay) { arguments := 1 } column head entries).withLeading
                (leadingComments leading)
          else lay column node
      | _ => lay column node
  | _ => lay column node

end CljTidy.Layout
