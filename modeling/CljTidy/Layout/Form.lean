/-
  Laying out collections and calls.

  A sequence has one item to a line, pairs have one key and value to a line, both aligned behind the
  opening bracket.  A call keeps its head and a few arguments on the first line, the call line, and
  puts every other item on a line of its own.  Comments that stand before the end of the call line
  are moved in front of the whole list, unless the style says to leave them: then the first of them
  ends the call line.
-/
import CljTidy.Item.Group
import CljTidy.Layout.Draft
import CljTidy.Record

namespace CljTidy.Layout

/-! ## Sequences and pairs -/

/-- Writes a record: a pair on one line, with the comments that leave it on lines above. -/
def Draft.record (lay : Lay) (d : Draft) : Record → Draft
  | .comment text => d.comment text
  | .orphan item => d.item lay false item
  | .pair key value =>
      d.append ((((Draft.start d.column).item lay true key).space).item lay true value)

/-- The branch for children written into a draft; nothing leaves it. -/
def Draft.toBranch (bracket : Bracket) (d : Draft) : Rendered :=
  { node := .branch bracket d.children, notes := d.notes }

/-- A collection with one item to a line. -/
def sequence (lay : Lay) (column : Int) (bracket : Bracket) (children : List Node) : Rendered :=
  let align := column + bracket.width
  (((Draft.start align).lines align (Draft.item lay false) (Item.group children)).close
    align).toBranch bracket

/-- A collection with one pair to a line. -/
def pairs (lay : Lay) (column : Int) (bracket : Bracket) (children : List Node) : Rendered :=
  let align := column + bracket.width
  (((Draft.start align).lines align (Draft.record lay)
    (Record.ofItems (Item.group children))).close align).toBranch bracket

/-! ## Calls -/

/-- How a call is laid out: how many arguments go on the call line, where the other items start (by
    default below the first argument), and whether comments on the way leave the list. -/
structure CallStyle where
  arguments : Nat := 0
  bodyColumn : Option Int := none
  hoist : Bool := true
  deriving Repr, DecidableEq

/-- The state at the end of a call line: what is written, the column of the first argument, and the
    items still to be written. -/
structure CallLine where
  draft : Draft
  first : Option Int
  rest : List Item

/-- Writes up to `n` arguments onto the call line. -/
def placeArguments (lay : Lay) (hoist : Bool) :
    Nat → Option Int → Draft → List Item → CallLine
  | 0, first, d, items => ⟨d, first, items⟩
  | _, first, d, [] => ⟨d, first, []⟩
  | n + 1, first, d, item :: items =>
      if item.isComment then
        if hoist then placeArguments lay hoist (n + 1) first (d.hoist [item.element.text]) items
        else ⟨d, first, item :: items⟩
      else
        let start := d.space.column
        let written := d.space.item lay true item.bare
        let first := some (first.getD start)
        match item.comment with
        | none => placeArguments lay hoist n first written items
        | some text =>
            if n ≠ 0 ∧ hoist ∧ !(Item.elements items).isEmpty then
              placeArguments lay hoist n first (written.hoist [text]) items
            else ⟨written.trailing text, first, items⟩

/-- The head of a call and its arguments on the call line. -/
def callLine (lay argumentLay : Lay) (style : CallStyle) (column : Int) (head : Item)
    (items : List Item) : CallLine :=
  let d := (Draft.start (column + 1)).item lay true head.bare
  match head.comment with
  | none => placeArguments argumentLay style.hoist style.arguments none d items
  | some text =>
      if style.hoist then
        placeArguments argumentLay style.hoist style.arguments none (d.hoist [text]) items
      else ⟨d.trailing text, none, items⟩

/-- A list as a call.  The head is laid out by `lay`, arguments on the call line by `argumentLay`,
    and the items below by `bodyLay`. -/
def call (lay argumentLay bodyLay : Lay) (style : CallStyle) (column : Int) (head : Item)
    (items : List Item) : Rendered :=
  let line := callLine lay argumentLay style column head items
  let bodyColumn := style.bodyColumn.getD (line.first.getD (column + 1))
  ((line.rest.foldl (fun d item => (d.newline bodyColumn).item bodyLay false item)
    line.draft).close bodyColumn).toList

/-- A list as an ordinary call: one argument on the call line, the others below it. -/
def ordinaryCall (lay : Lay) (column : Int) (head : Item) (items : List Item) : Rendered :=
  call lay lay lay { arguments := 1 } column head items

end CljTidy.Layout
