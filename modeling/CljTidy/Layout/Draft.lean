/-
  Writing items.

  Laying out an element gives a node and the comments that had to leave it, to be written on lines
  of their own in front.  A draft is a buffer with the comments gathered so far and the notes taken
  along the way.  Everything here is written over an arbitrary way `lay` of laying out an element.
-/
import CljTidy.Item.Basic
import CljTidy.Layout.Buffer

namespace CljTidy.Layout

/-! ## Results -/

/-- What is worth noting while laying out: a list laid out by a rule of its own, and the number of
    entries of a document. -/
inductive Note
  | specialForm (head : String) (column : Int)
  | entries (count : Nat)
  deriving Repr, DecidableEq

/-- A node that was laid out, the comments to be written before it, and the notes taken. -/
structure Rendered where
  node : Node
  hoisted : List String := []
  notes : List Note := []
  deriving DecidableEq

/-- A way to lay out an element at a column. -/
abbrev Lay := Int → Node → Rendered

/-- Puts comments in front of the ones to be written before a node. -/
def Rendered.withLeading (r : Rendered) (comments : List String) : Rendered :=
  { r with hoisted := comments ++ r.hoisted }

/-! ## Drafts -/

/-- A buffer with the comments gathered and the notes taken. -/
structure Draft where
  buffer : Buffer
  hoisted : List String := []
  notes : List Note := []

namespace Draft

/-- Nothing written yet, at a column. -/
def start (column : Int) : Draft := { buffer := .start column }

/-- The column behind what is written. -/
def column (d : Draft) : Int := d.buffer.column

/-- Writes a node. -/
def emit (d : Draft) (node : Node) : Draft := { d with buffer := d.buffer.emit node }

/-- Writes one space. -/
def space (d : Draft) : Draft := { d with buffer := d.buffer.space }

/-- Starts a new line. -/
def newline (d : Draft) (column : Int) (blank : Bool := false) : Draft :=
  { d with buffer := d.buffer.newline column blank }

/-- Writes a comment in its tidy form. -/
def comment (d : Draft) (text : String) : Draft := d.emit (.comment (Comment.tidy text))

/-- Writes a comment behind something on the same line. -/
def trailing (d : Draft) (text : String) : Draft := d.space.comment text

/-- Gathers comments to be written in front of the whole. -/
def hoist (d : Draft) (comments : List String) : Draft :=
  { d with hoisted := d.hoisted ++ comments }

/-- Adds notes. -/
def note (d : Draft) (notes : List Note) : Draft := { d with notes := d.notes ++ notes }

/-- Writes comments, each on a line of its own, and comes back to the column. -/
def commentLines (d : Draft) (column : Int) (comments : List String) : Draft :=
  comments.foldl (fun d text => (d.comment text).newline column) d

/-- Moves behind a comment that stands last, to the given column. -/
def close (d : Draft) (column : Int) : Draft :=
  if d.buffer.endsWithComment then d.newline column else d

/-- Writes the first thing here and every other one on a new line at the column. -/
def lines {α : Type} (column : Int) (write : Draft → α → Draft) (d : Draft) : List α → Draft
  | [] => d
  | x :: xs => xs.foldl (fun d x => write (d.newline column) x) (write d x)

/-! ## Items -/

/-- The width of a marker and the space behind it. -/
def markerWidth (marker : Option String) : Int :=
  match marker with
  | some text => text.length + 1
  | none => 0

/-- Writes a marker and a space. -/
def marker (d : Draft) : Option String → Draft
  | some text => (d.emit (.atom text)).space
  | none => d

/-- Writes a trailing comment if there is one. -/
def trailing? (d : Draft) : Option String → Draft
  | some text => d.trailing text
  | none => d

/-- Writes an item.  Comments that leave its element are gathered if `gather`, and otherwise written
    on their own lines first. -/
def item (lay : Lay) (gather : Bool) (d : Draft) (item : Item) : Draft :=
  if item.isComment then d.comment item.element.text
  else
    let rendered := lay (d.column + markerWidth item.marker) item.element
    let placed :=
      if gather then d.hoist rendered.hoisted else d.commentLines d.column rendered.hoisted
    (((placed.note rendered.notes).marker item.marker).emit rendered.node).trailing? item.comment

/-- Appends what was written aside, with the comments it gathered on lines of their own first. -/
def append (d : Draft) (aside : Draft) : Draft :=
  let above := d.commentLines d.column aside.hoisted
  { above with
    buffer := above.buffer.extend aside.buffer
    notes := d.notes ++ aside.notes }

/-- The children written so far. -/
def children (d : Draft) : List Node := d.buffer.nodes.toList

/-- The draft as a list. -/
def toList (d : Draft) : Rendered := ⟨.list d.children, d.hoisted, d.notes⟩

end Draft

end CljTidy.Layout
