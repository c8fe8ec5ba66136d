/-
  Laying out any node.

  `step` lays out a node given a way to lay out the elements of its collections; marks and metadata
  are passed through on the way.  `layout` closes the loop: the elements of a collection have a
  smaller rank than the collection, so as many rounds as the rank says are enough.

  At the top level forms are separated by an empty line; a comment stands right above whatever
  follows it.
-/
import CljTidy.Layout.Rule

namespace CljTidy.Layout

/-! ## The top level -/

/-- Something at the top level: its nodes, and whether it is a comment. -/
structure Entry where
  nodes : List Node
  isComment : Bool := false
  deriving Repr, DecidableEq

namespace Entry

/-- A comment in its tidy form as an entry. -/
def ofComment (text : String) : Entry := ⟨[.comment (Comment.tidy text)], true⟩

/-- What stands between an entry and the next one. -/
def separator (entry : Entry) : List Node :=
  if entry.isComment then [.newline "\n"] else [.newline "\n", .newline "\n"]

/-- The nodes of entries in a row. -/
def joinNodes : List Entry → List Node
  | [] => []
  | [entry] => entry.nodes
  | entry :: entries => entry.nodes ++ entry.separator ++ joinNodes entries

/-- The document made of the entries. -/
def join (entries : List Entry) : Node := .document (joinNodes entries)

end Entry

/-- The entries of an item at the top level, comments that leave it first, and the notes taken. -/
def itemEntries (lay : Lay) (item : Item) : List Entry × List Note :=
  if item.isComment then ([.ofComment item.element.text], [])
  else
    let d := (Draft.start 0).item lay true item
    (d.hoisted.map Entry.ofComment ++ [{ nodes := d.children }], d.notes)

/-- A whole document. -/
def document (lay : Lay) (children : List Node) : Rendered :=
  let parts := (Item.group children).map (itemEntries lay)
  let entries := parts.flatMap Prod.fst
  { node := Entry.join entries
    notes := parts.flatMap Prod.snd ++ [.entries entries.length] }

/-! ## One round -/

/-- A list: by the rule for its head, or as an ordinary call.  The comments in front of the head
    leave the list. -/
def list (table : Table) (lay : Lay) (column : Int) (children : List Node) : Rendered :=
  match Item.splitHead (Item.group children) with
  | (leading, none, _) => { node := .list [], hoisted := leadingComments leading }
  | (leading, some head, items) =>
      let rendered :=
        match table.ruleFor? head with
        | none => ordinaryCall lay column head items
        | some rule =>
            let r := rule.apply lay column head items
            { r with notes := .specialForm head.element.text column :: r.notes }
      rendered.withLeading (leadingComments leading)

/-- Lays out a node whose collections' elements are laid out by `lay`. -/
def step (table : Table) (lay : Lay) : Lay
  | _, .comment text => { node := .comment (Comment.tidy text) }
  | column, .list children => list table lay column children
  | column, .map children => pairs lay column .map children
  | column, .vector children => sequence lay column .vector children
  | column, .set children => sequence lay column .set children
  | _, .document children => document lay children
  | column, .wrap (.conditional splicing) (.list children) =>
      let r := pairs lay (column + (Mark.conditional splicing).width) .list children
      { r with node := .wrap (.conditional splicing) r.node }
  | column, .wrap mark child =>
      let r := step table lay (column + mark.width) child
      { r with node := .wrap mark r.node }
  | column, .annotated metadata target =>
      let m := step table lay (column + 1) metadata
      let t := step table lay (endColumn (column + 1) m.node.text + 1) target
      { node := .annotated m.node t.node
        hoisted := m.hoisted ++ t.hoisted
        notes := m.notes ++ t.notes }
  | _, node => { node }

/-! ## Rank -/

/-- A require or import clause with entries counts one level more: putting it in canonical order may
    wrap them. -/
def clauseLevel (node : Node) : Nat :=
  match Namespace.clauseKind? node, node with
  | none, _ => 0
  | some .other, _ => 0
  | some _, .branch _ children =>
      if (Item.splitHead (Item.group children)).2.2.isEmpty then 0 else 1
  | some _, _ => 0

mutual

/-- How deeply collections are nested in a node. -/
def rank : Node → Nat
  | .branch _ children => rankAll children + 1
  | .wrap _ child => rank child
  | .annotated metadata target => max (rank metadata) (rank target)
  | _ => 0

/-- The largest rank of the nodes, clauses counted with their level. -/
def rankAll : List Node → Nat
  | [] => 0
  | node :: nodes => max (rank node + clauseLevel node) (rankAll nodes)

end

/-! ## All rounds -/

/-- `n` rounds, with nodes left as they are beyond them. -/
def rounds (table : Table) : Nat → Lay
  | 0 => fun _ node => { node }
  | n + 1 => step table (rounds table n)

/-- Lays out a node at a column. -/
def layout (table : Table) : Lay := fun column node => rounds table (rank node + 1) column node

/-- The node with the comments that left it on lines in front of it. -/
def Rendered.settle (column : Int) (r : Rendered) : Node :=
  if r.hoisted.isEmpty then r.node
  else .fragment (((Draft.start column).commentLines column r.hoisted).emit r.node).children

/-- Lays out a node at a column, with the comments that left it on lines in front of it. -/
def render (table : Table) (column : Int) (node : Node) : Node :=
  (layout table column node).settle column

end CljTidy.Layout
