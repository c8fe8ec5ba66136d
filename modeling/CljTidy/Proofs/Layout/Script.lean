/-
  What is written, as data.

  A draft is filled by writing: gaps, items, comments on lines of their own.  A script lists the
  items in the order they are written, each as it comes out and with the gap in front of it.  A
  sheet is a draft seen from outside, without its notes.  Every way to write an item amounts to
  writing a script on the sheet (`sheet_item_gather`, `sheet_item_above`, `sheet_append`), so
  everything that follows can be said about scripts, which are plain lists.
-/
import CljTidy.Layout.Draft
import CljTidy.Layout.Flat
import CljTidy.Proofs.Item.Content

namespace CljTidy

/-! ## Items as they come out -/

namespace Item

/-- A comment in its tidy form, on a line of its own. -/
def ofComment (text : String) : Item := ⟨.comment (Comment.tidy text), none, none⟩

/-- The nodes of a trailing comment. -/
def trailingNodes : Option String → List Node
  | some text => [.space " ", .comment text]
  | none => []

/-- The nodes of an item on its line, its trailing comment included. -/
def written (i : Item) : List Node := i.inlineNodes ++ trailingNodes i.comment

/-- The column behind an item that starts at a column. -/
def ending (column : Int) (i : Item) : Int := Layout.endColumn column (Node.textAll i.written)

/-! What holds of spaces holds of all that stands on a line, if it holds of the rest. -/

section

variable {P : Node → Prop} (hspace : P (.space " "))

include hspace

/-- A marker, the element and the space between them. -/
theorem forall_inlineNodes {i : Item} (hmarker : ∀ text ∈ i.marker, P (.atom text))
    (helement : P i.element) : ∀ n ∈ i.inlineNodes, P n := by
  obtain ⟨element, _ | text, comment⟩ := i
  · exact List.forall_mem_singleton.mpr helement
  · exact List.forall_mem_cons.mpr ⟨hmarker text rfl,
      List.forall_mem_cons.mpr ⟨hspace, List.forall_mem_singleton.mpr helement⟩⟩

/-- A space and the comment behind it. -/
theorem forall_trailingNodes {comment : Option String}
    (hcomment : ∀ text ∈ comment, P (.comment text)) : ∀ n ∈ trailingNodes comment, P n := by
  cases comment with
  | none => rintro n ⟨⟩
  | some text =>
    exact List.forall_mem_cons.mpr ⟨hspace, List.forall_mem_singleton.mpr (hcomment text rfl)⟩

/-- Items on one line, with spaces between them. -/
theorem forall_inline (hmarker : ∀ text, P (.atom text)) {items : List Item}
    (h : ∀ i ∈ items, P i.element) : ∀ n ∈ inline items, P n := by
  have hnodes : ∀ i ∈ items, ∀ n ∈ i.inlineNodes, P n := fun i hi =>
    forall_inlineNodes hspace (fun text _ => hmarker text) (h i hi)
  clear h
  fun_induction inline items with
  | case1 => rintro n ⟨⟩
  | case2 i => exact hnodes i (List.mem_singleton.mpr rfl)
  | case3 i items _ ih =>
    obtain ⟨hi, hrest⟩ := List.forall_mem_cons.mp hnodes
    exact List.forall_mem_append.mpr ⟨hi, List.forall_mem_cons.mpr ⟨hspace, ih hrest⟩⟩

end

end Item

namespace Layout

/-- A marker never leads back to the left. -/
theorem markerWidth_nonneg (marker : Option String) : 0 ≤ Draft.markerWidth marker := by
  unfold Draft.markerWidth
  split <;> omega

/-- An item as it comes out at a column, in a way `lay` of laying out elements. -/
def settle (lay : Lay) (column : Int) (i : Item) : Item :=
  if i.isComment then .ofComment i.element.text
  else
    ⟨(lay (column + Draft.markerWidth i.marker) i.element).node, i.marker,
      i.comment.map Comment.tidy⟩

/-- The comments that leave an item laid out at a column. -/
def leaving (lay : Lay) (column : Int) (i : Item) : List String :=
  if i.isComment then [] else (lay (column + Draft.markerWidth i.marker) i.element).hoisted

/-- An item below the comments that leave it. -/
def settled (lay : Lay) (column : Int) (i : Item) : List Item :=
  (leaving lay column i).map .ofComment ++ [settle lay column i]

/-! ## Scripts -/

/-- What stands in front of an item: nothing, one space, or a line break to a column. -/
inductive Gap
  | none
  | space
  | line (column : Int) (blank : Bool)
  deriving DecidableEq

/-- The nodes of a gap. -/
def Gap.nodes : Gap → List Node
  | none => []
  | space => [.space " "]
  | line column blank => Buffer.breakNodes column blank

/-- A gap is trivia. -/
theorem noise_gap (g : Gap) : ∀ n ∈ g.nodes, n.isNoise = true := by
  cases g with
  | none => rintro n ⟨⟩
  | space =>
    intro n hn
    rw [List.mem_singleton.mp hn]
    rfl
  | line column blank =>
    intro n hn
    simp only [Gap.nodes, Buffer.breakNodes, List.mem_cons, List.mem_append] at hn
    rcases hn with (rfl | hn) | hn
    · rfl
    · split at hn
      · rw [List.mem_singleton.mp hn]; rfl
      · cases hn
    · split at hn
      · cases hn
      · rw [List.mem_singleton.mp hn]; rfl

/-- The column behind a gap. -/
def Gap.column (column : Int) : Gap → Int
  | none => column
  | space => column + 1
  | line column _ => column

/-- An item as it comes out, with the gap in front of it. -/
structure Placed where
  gap : Gap
  item : Item
  deriving DecidableEq

/-- The nodes of a gap and an item. -/
def Placed.nodes (p : Placed) : List Node := p.gap.nodes ++ p.item.written

/-- The column behind a gap and an item. -/
def Placed.ending (column : Int) (p : Placed) : Int := p.item.ending (p.gap.column column)

/-- Items in the order they are written. -/
abbrev Script := List Placed

namespace Script

/-- The items of a script. -/
def items (s : Script) : List Item := s.map Placed.item

/-- The nodes of a script. -/
def nodes (s : Script) : List Node := s.flatMap Placed.nodes

/-- The column behind a script. -/
def ending (column : Int) (s : Script) : Int := s.foldl Placed.ending column

/-- Nothing may follow on the last line of the script. -/
def closesLine (s : Script) : Bool := s.getLast?.any fun p => p.item.closesLine

@[simp] theorem items_nil : items [] = [] := rfl

@[simp] theorem items_cons (p : Placed) (s : Script) : items (p :: s) = p.item :: items s := rfl

/-- Items of scripts one behind the other. -/
@[simp] theorem items_append (s t : Script) : items (s ++ t) = items s ++ items t := by
  simp [items]

@[simp] theorem nodes_nil : nodes [] = [] := rfl

@[simp] theorem nodes_cons (p : Placed) (s : Script) : nodes (p :: s) = p.nodes ++ nodes s := rfl

end Script

/-- Items below each other at a column, the first one behind the given gap. -/
def rows (column : Int) : Gap → List Item → Script
  | _, [] => []
  | gap, i :: items => ⟨gap, i⟩ :: rows column (.line column false) items

/-- Rows hold the items they are made of. -/
@[simp] theorem items_rows (column : Int) (gap : Gap) (items : List Item) :
    (rows column gap items).items = items := by
  induction items generalizing gap with
  | nil => rfl
  | cons i items ih => simp [rows, ih]

/-- More items below, each behind a line break to the column. -/
theorem rows_append {column : Int} {items : List Item} (h : items ≠ []) (gap : Gap)
    (more : List Item) :
    rows column gap (items ++ more) =
      rows column gap items ++ rows column (.line column false) more := by
  induction items generalizing gap with
  | nil => exact absurd rfl h
  | cons i items ih =>
    cases items with
    | nil => rfl
    | cons j items => exact congrArg (⟨gap, i⟩ :: ·) (ih (by simp) _)

/-- Behind a line break at the column, rows go on as they started. -/
theorem rows_line_append (column : Int) (items more : List Item) :
    rows column (.line column false) (items ++ more) =
      rows column (.line column false) items ++ rows column (.line column false) more := by
  cases items with
  | nil => rfl
  | cons i items => exact rows_append (by simp) _ more

/-- What an item settles to has the item itself in it. -/
theorem settled_ne_nil (lay : Lay) (column : Int) (i : Item) : settled lay column i ≠ [] := by
  simp [settled]

/-! ## Sheets -/

/-- A draft seen from outside: the nodes, the column, whether the line is closed by a comment, and
    the comments gathered. -/
structure Sheet where
  nodes : List Node
  column : Int
  closed : Bool
  hoisted : List String

namespace Sheet

/-- An empty sheet at a column. -/
def start (column : Int) : Sheet := ⟨[], column, false, []⟩

/-- Leaves a gap. -/
def gap (s : Sheet) (g : Gap) : Sheet :=
  ⟨s.nodes ++ g.nodes, g.column s.column, s.closed && g == .none, s.hoisted⟩

/-- Writes an item. -/
def put (s : Sheet) (i : Item) : Sheet :=
  ⟨s.nodes ++ i.written, i.ending s.column, i.closesLine, s.hoisted⟩

/-- Writes a script. -/
def write (s : Sheet) (script : Script) : Sheet :=
  script.foldl (fun s p => (s.gap p.gap).put p.item) s

/-- Gathers comments. -/
def hoist (s : Sheet) (comments : List String) : Sheet :=
  { s with hoisted := s.hoisted ++ comments }

@[simp] theorem write_nil (s : Sheet) : s.write [] = s := rfl

/-- An entry is its gap and its item. -/
theorem write_cons (s : Sheet) (p : Placed) (script : Script) :
    s.write (p :: script) = ((s.gap p.gap).put p.item).write script := rfl

/-- Scripts are written one behind the other. -/
theorem write_append (s : Sheet) (t u : Script) : s.write (t ++ u) = (s.write t).write u := by
  simp [write]

@[simp] theorem hoist_nil (s : Sheet) : s.hoist [] = s := by simp [hoist]

/-- Comments are gathered in order. -/
@[simp] theorem hoist_hoist (s : Sheet) (a b : List String) :
    (s.hoist a).hoist b = s.hoist (a ++ b) := by simp [hoist]

/-- Gathering and writing do not get in each other's way. -/
theorem write_hoist (s : Sheet) (a : List String) (script : Script) :
    (s.hoist a).write script = (s.write script).hoist a := by
  induction script generalizing s with
  | nil => rfl
  | cons p script ih => exact ih ((s.gap p.gap).put p.item)

/-- What a script leaves on a sheet. -/
theorem write_eq (s : Sheet) (script : Script) :
    s.write script =
      ⟨s.nodes ++ script.nodes, script.ending s.column,
        if script.isEmpty then s.closed else script.closesLine, s.hoisted⟩ := by
  induction script generalizing s with
  | nil => simp [Script.ending]
  | cons p script ih =>
    rw [write_cons, ih]
    cases script with
    | nil => simp [put, gap, Placed.nodes, Script.ending, Placed.ending, Script.closesLine]
    | cons q script =>
      simp [put, gap, Placed.nodes, Script.ending, Placed.ending, Script.closesLine]

end Sheet

/-! ## Drafts as sheets -/

namespace Draft

/-- The draft from outside. -/
def sheet (d : Draft) : Sheet := ⟨d.children, d.column, d.buffer.endsWithComment, d.hoisted⟩

/-- Leaves a gap. -/
def leave (d : Draft) : Gap → Draft
  | .none => d
  | .space => d.space
  | .line column blank => d.newline column blank

/-- A draft and its sheet are at one column. -/
theorem column_eq (d : Draft) : d.column = d.sheet.column := rfl

/-- Notes cannot be seen on a sheet. -/
@[simp] theorem sheet_note (d : Draft) (notes : List Note) : (d.note notes).sheet = d.sheet := rfl

@[simp] theorem sheet_hoist (d : Draft) (comments : List String) :
    (d.hoist comments).sheet = d.sheet.hoist comments := rfl

/-- A node goes behind the others, moves the column on and may close the line. -/
theorem sheet_emit (d : Draft) (node : Node) :
    (d.emit node).sheet =
      ⟨d.sheet.nodes ++ [node], endColumn d.sheet.column node.text, node.isComment,
        d.sheet.hoisted⟩ := by
  simp [sheet, emit, Buffer.emit, children, column]

/-- Leaving a gap in a draft leaves it on the sheet, -/
@[simp] theorem sheet_leave (d : Draft) (g : Gap) : (d.leave g).sheet = d.sheet.gap g := by
  cases g with
  | none => simp [leave, Sheet.gap, Gap.nodes, Gap.column]
  | space =>
    show (d.emit (.space " ")).sheet = _
    rw [sheet_emit]
    have hcolumn : endColumn d.sheet.column " " = d.sheet.column + 1 := rfl
    simp [Sheet.gap, Gap.nodes, Gap.column, Node.text, Node.isComment, hcolumn]
  | line column blank =>
    simp [leave, newline, Buffer.newline, sheet, Sheet.gap, Gap.nodes, Gap.column, children,
      Draft.column]

/-- and leads to the column behind it. -/
theorem column_leave (d : Draft) (g : Gap) : (d.leave g).column = g.column d.column := by
  rw [column_eq, sheet_leave]
  rfl

/-- A comment is an item on its own. -/
theorem sheet_comment (d : Draft) (text : String) :
    (d.comment text).sheet = d.sheet.put (.ofComment text) := by
  rw [comment, sheet_emit]
  simp [Sheet.put, Item.ofComment, Item.written, Item.inlineNodes, Item.trailingNodes, Item.ending,
    Item.closesLine, Item.isComment, Node.isComment, Node.textAll, Node.text]

/-- Marker, element and trailing comment make an item. -/
theorem sheet_put (d : Draft) (node : Node) (marker comment : Option String) :
    (((d.marker marker).emit node).trailing? comment).sheet =
      d.sheet.put ⟨node, marker, comment.map Comment.tidy⟩ := by
  have hspace : ∀ c : Int, endColumn c " " = c + 1 := fun _ => rfl
  cases marker <;> cases comment <;>
    simp [Draft.marker, trailing?, trailing, Draft.comment, space, sheet, emit, Buffer.emit,
      Buffer.space, Sheet.put, Item.written, Item.inlineNodes, Item.trailingNodes, Item.ending,
      Item.closesLine, Item.isComment, children, column, Node.textAll, Node.text,
      endColumn_append, Node.isComment]

/-- Comments on lines of their own, and an item below them. -/
theorem sheet_commentLines (d : Draft) (g : Gap) (column : Int) (comments : List String)
    (i : Item) :
    ((d.leave g).commentLines column comments).sheet.put i =
      d.sheet.write (rows column g (comments.map .ofComment ++ [i])) := by
  induction comments generalizing d g with
  | nil => simp [commentLines, rows, Sheet.write_cons]
  | cons text comments ih =>
    -- The line break behind the comment is the gap in front of what follows.
    have hstep : (d.leave g).commentLines column (text :: comments) =
        (((d.leave g).comment text).leave (.line column false)).commentLines column comments := rfl
    rw [hstep, ih, sheet_comment, sheet_leave]
    rfl

/-- Comments on lines of their own lead back to the column they started at, -/
@[simp] theorem column_commentLines (d : Draft) (comments : List String) :
    (d.commentLines d.column comments).column = d.column := by
  suffices h : ∀ (comments : List String) (e : Draft), e.column = d.column →
      (e.commentLines d.column comments).column = d.column from h comments d rfl
  intro comments
  induction comments with
  | nil => intro e he; exact he
  | cons text comments ih => intro e _; exact ih _ rfl

/-- and are not gathered. -/
@[simp] theorem hoisted_commentLines (d : Draft) (column : Int) (comments : List String) :
    (d.commentLines column comments).hoisted = d.hoisted := by
  induction comments generalizing d with
  | nil => rfl
  | cons text comments ih => exact ih _

/-- What was written aside goes below the comments it gathered. -/
theorem sheet_append (d aside : Draft) (g : Gap) (k : Item) (script : Script)
    (comments : List String)
    (h : aside.sheet =
      ((Sheet.start (d.leave g).column).write (⟨.none, k⟩ :: script)).hoist comments) :
    ((d.leave g).append aside).sheet =
      d.sheet.write
        (rows (d.leave g).column g (comments.map .ofComment ++ [k]) ++ script) := by
  have hhoisted : aside.hoisted = comments := by
    show aside.sheet.hoisted = _
    rw [h, Sheet.write_eq]
    rfl
  have hcolumn := column_commentLines (d.leave g) comments
  have habove : ((d.leave g).commentLines (d.leave g).column comments).sheet.hoisted =
      d.sheet.hoisted := by
    show ((d.leave g).commentLines (d.leave g).column comments).hoisted = _
    rw [hoisted_commentLines]
    show (d.leave g).sheet.hoisted = _
    rw [sheet_leave]
    rfl
  rw [Sheet.write_append, ← sheet_commentLines]
  -- Both sides are now the comment lines, the first item and the rest of the script.
  have happend : ((d.leave g).append aside).sheet =
      ⟨((d.leave g).commentLines (d.leave g).column aside.hoisted).sheet.nodes ++ aside.sheet.nodes,
        aside.sheet.column, aside.sheet.closed,
        ((d.leave g).commentLines (d.leave g).column aside.hoisted).sheet.hoisted⟩ := by
    simp [append, sheet, Buffer.extend, children, Draft.column]
  rw [happend, hhoisted, h, Sheet.write_cons, Sheet.write_eq, Sheet.write_eq]
  simp [Sheet.put, Sheet.gap, Sheet.hoist, Sheet.start, Gap.nodes, Gap.column, ← column_eq, hcolumn]

/-- An item whose comments are gathered is one entry of a script. -/
theorem sheet_item_gather (lay : Lay) (d : Draft) (g : Gap) (i : Item) :
    ((d.leave g).item lay true i).sheet =
      (d.sheet.write [⟨g, settle lay (g.column d.column) i⟩]).hoist
        (leaving lay (g.column d.column) i) := by
  have hcolumn := column_leave d g
  by_cases hi : i.isComment = true
  · simp [item, hi, settle, leaving, sheet_comment, Sheet.write_cons]
  · simp only [item, hi, settle, leaving, hcolumn, Bool.false_eq_true, if_false, if_true, sheet_put,
      sheet_note, sheet_hoist, sheet_leave]
    rfl

/-- An item whose comments stand above it is a few rows of a script. -/
theorem sheet_item_above (lay : Lay) (d : Draft) (g : Gap) (i : Item) :
    ((d.leave g).item lay false i).sheet =
      d.sheet.write (rows (g.column d.column) g (settled lay (g.column d.column) i)) := by
  have hcolumn := column_leave d g
  by_cases hi : i.isComment = true
  · simp [item, hi, settled, settle, leaving, sheet_comment, rows, Sheet.write_cons]
  · rw [settled, ← sheet_commentLines]
    simp only [item, hi, settle, leaving, hcolumn, Bool.false_eq_true, if_false, sheet_put,
      sheet_note]

end Draft

end Layout

end CljTidy
