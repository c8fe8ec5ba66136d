/-
  What is written, and where.

  A column counts the characters in front on the same line, from zero.  Writing a text moves the
  column on by its length, and every line feed starts again at zero.

  A comment is written in its tidy form: no white space at its end, and at least two semicolons in
  front.  A comment that does not start with a semicolon (`#!`) keeps its start.

  A buffer is a line of output under construction.  It collects nodes and knows the column behind
  them, and whether a comment stands last: then nothing more may go onto that line.
-/
import CljTidy.Character.Class
import CljTidy.Node.Basic

namespace CljTidy

/-! ## Comments -/

namespace Comment

open Character

/-- A text without the white space at its end. -/
def trimEnd (text : List Char) : List Char := (text.reverse.dropWhile isSpace).reverse

/-- Doubles a lone semicolon in front. -/
def doubled : List Char → List Char
  | ';' :: ';' :: rest => ';' :: ';' :: rest
  | ';' :: rest => ';' :: ';' :: rest
  | text => text

/-- The tidy form of a comment. -/
def tidy (text : String) : String := String.ofList (doubled (trimEnd text.toList))

end Comment

namespace Layout

/-! ## Columns -/

/-- The column behind a text that starts at `column`. -/
def endColumn (column : Int) (text : String) : Int :=
  text.toList.foldl (fun column c => if c = '\n' then 0 else column + 1) column

/-- Writing two texts in turn is writing them as one. -/
theorem endColumn_append (column : Int) (a b : String) :
    endColumn column (a ++ b) = endColumn (endColumn column a) b := by
  simp [endColumn, String.toList_append]

/-! ## Buffers -/

/-- The nodes written so far, the column behind them, and whether the last one is a comment. -/
structure Buffer where
  nodes : Array Node := #[]
  column : Int
  endsWithComment : Bool := false

/-- `column` spaces; none for a column left of the margin. -/
def indentation (column : Int) : String := String.ofList (List.replicate column.toNat ' ')

namespace Buffer

/-- Nothing written yet, at a column. -/
def start (column : Int) : Buffer := { column }

/-- Writes a node. -/
def emit (b : Buffer) (node : Node) : Buffer :=
  { nodes := b.nodes.push node
    column := endColumn b.column node.text
    endsWithComment := node.isComment }

/-- Writes one space. -/
def space (b : Buffer) : Buffer := b.emit (.space " ")

/-- The nodes of a line break to a column, after an empty line if `blank`. -/
def breakNodes (column : Int) (blank : Bool) : List Node :=
  .newline "\n" :: (if blank then [.newline "\n"] else [])
    ++ (if column = 0 then [] else [.space (indentation column)])

/-- Starts a new line at a column, after an empty line if `blank`. -/
def newline (b : Buffer) (column : Int) (blank : Bool := false) : Buffer :=
  { nodes := b.nodes ++ breakNodes column blank, column, endsWithComment := false }

/-- Appends what was written aside. -/
def extend (b other : Buffer) : Buffer := { other with nodes := b.nodes ++ other.nodes }

end Buffer

end Layout

end CljTidy
