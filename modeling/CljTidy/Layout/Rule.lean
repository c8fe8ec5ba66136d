/-
  Lists with a layout of their own.

  A rule says how a list headed by a certain symbol is laid out.  A table maps head symbols to
  rules; `Table.standard` is the usual one.
-/
import CljTidy.Layout.Element

namespace CljTidy.Layout

/-- A layout for a list with a special head.  `indented n hoist` keeps `n` arguments on the call
    line and indents the others by two; the other rules are named for what they lay out. -/
inductive Rule
  | indented (arguments : Nat) (hoist : Bool)
  | function (named : Bool)
  | method
  | binding
  | clauses (leading : Nat)
  | ns
  deriving Repr, DecidableEq

/-! ## Functions -/

/-- The parts of a function in front of its parameters: whether it has a name, and how many of
    docstring and attribute map follow the name. -/
structure Signature where
  hasName : Bool
  preamble : Nat
  deriving Repr, DecidableEq

namespace Signature

/-- Whether a docstring, then an attribute map, stand in front of something else. -/
def preambleOf : List Item → Nat
  | first :: second :: rest =>
      if first.element.isString then
        match rest with
        | [] => 1
        | _ :: _ => if second.element.isMap then 2 else 1
      else if first.element.isMap then 1
      else 0
  | _ => 0

/-- The signature of a function with the given items behind its head. -/
def of (named : Bool) (items : List Item) : Signature :=
  match Item.elements items with
  | [] => ⟨false, 0⟩
  | first :: rest =>
      if first.element.isVector || first.element.isList then ⟨false, 0⟩
      else ⟨true, if named then preambleOf rest else 0⟩

/-- The number of elements in front of the parameters or the first arity. -/
def size (s : Signature) : Nat := (if s.hasName then 1 else 0) + s.preamble

end Signature

/-- A function: the name and parameters on the call line, or one arity to a line. -/
def function (lay : Lay) (named : Bool) (column : Int) (head : Item) (items : List Item) :
    Rendered :=
  let signature := Signature.of named items
  let hasArities :=
    match (Item.elements items).drop signature.size with
    | first :: _ => first.element.isList
    | [] => false
  if hasArities then
    if !named && !signature.hasName then
      call lay (arity lay) (arity lay) { arguments := 1 } column head items
    else
      call lay lay (arity lay)
        { arguments := if signature.hasName then 1 else 0, bodyColumn := some (column + 2) }
        column head items
  else
    call lay lay lay
      { arguments := if signature.hasName && signature.preamble = 0 then 2 else 1
        bodyColumn := some (column + 2) }
      column head items

/-- A method: name, dispatch value and parameters on the call line, or one arity to a line. -/
def method (lay : Lay) (column : Int) (head : Item) (items : List Item) : Rendered :=
  match Item.elements items with
  | _ :: _ :: third :: _ =>
      if third.element.isList then
        call lay lay (arity lay) { arguments := 2, bodyColumn := some (column + 2) } column head
          items
      else
        call lay lay lay { arguments := 3, bodyColumn := some (column + 2) } column head items
  | _ => call lay lay lay { arguments := 3, bodyColumn := some (column + 2) } column head items

/-! ## Bindings -/

/-- A binding form: the vector of bindings on the call line, the body indented. -/
def binding (lay : Lay) (column : Int) (head : Item) (items : List Item) : Rendered :=
  match Item.elements items with
  | first :: _ =>
      if first.element.isVector then
        call lay (bindings lay) lay { arguments := 1, bodyColumn := some (column + 2) } column head
          items
      else ordinaryCall lay column head items
  | [] => ordinaryCall lay column head items

/-! ## Clauses -/

/-- Writes up to `n` items behind the head: on its line until a comment ends the line, and on lines
    of their own from then on. -/
def placeLeading (lay : Lay) (bodyColumn : Int) :
    Nat → Bool → Draft → List Item → Draft × List Item
  | 0, _, d, items => (d, items)
  | _, _, d, [] => (d, [])
  | n + 1, inline, d, item :: items =>
      if item.isComment then
        placeLeading lay bodyColumn (n + 1) false ((d.newline bodyColumn).item lay false item) items
      else
        let written :=
          if inline then d.space.item lay true item
          else (d.newline bodyColumn).item lay false item
        placeLeading lay bodyColumn n (inline && item.comment.isNone) written items

/-- Writes a clause at the current column: test and result on two lines, with the comments that
    leave them above both. -/
def Draft.clause (lay : Lay) (d : Draft) : Record → Draft
  | .comment text => d.comment text
  | .orphan item => d.item lay false item
  | .pair key value =>
      d.append ((((Draft.start d.column).item lay true key).newline d.column).item lay true value)

/-- Writes clauses on new lines; an empty line follows everything but a comment. -/
def placeClauses (lay : Lay) (bodyColumn : Int) : Bool → Draft → List Record → Draft
  | _, d, [] => d
  | blank, d, record :: records =>
      placeClauses lay bodyColumn (!record.isComment)
        ((d.newline bodyColumn blank).clause lay record) records

/-- A form made of clauses: some leading items on the line of the head, then test and result pairs
    with empty lines between them. -/
def clauses (lay : Lay) (leading : Nat) (column : Int) (head : Item) (items : List Item) :
    Rendered :=
  let bodyColumn := column + 2
  let d := ((Draft.start (column + 1)).item lay true head.bare).trailing? head.comment
  let (d, rest) := placeLeading lay bodyColumn leading head.comment.isNone d items
  ((placeClauses lay bodyColumn false d (Record.ofItems rest)).close bodyColumn).toList

/-! ## All rules -/

/-- Lays out a list with the given head and items by a rule. -/
def Rule.apply (lay : Lay) (rule : Rule) (column : Int) (head : Item) (items : List Item) :
    Rendered :=
  match rule with
  | .indented arguments hoist =>
      call lay lay lay { arguments, bodyColumn := some (column + 2), hoist } column head items
  | .function named => Layout.function lay named column head items
  | .method => Layout.method lay column head items
  | .binding => Layout.binding lay column head items
  | .clauses leading => Layout.clauses lay leading column head items
  | .ns =>
      call lay lay (nsClause lay) { arguments := 1, bodyColumn := some (column + 2) } column head
        (Namespace.normalizeDeclarations items)

/-- Rules by head symbol. -/
abbrev Table := List (String × Rule)

namespace Table

/-- The rule for a head symbol. -/
def find? (table : Table) (name : String) : Option Rule := table.lookup name

/-- The rule for a head item: it has to be a plain atom. -/
def ruleFor? (table : Table) (head : Item) : Option Rule :=
  match head.element, head.marker with
  | .atom name, none => table.find? name
  | _, _ => none

/-- The same rule for several symbols. -/
def each (names : List String) (rule : Rule) : Table := names.map fun name => (name, rule)

/-- The usual table. -/
def standard : Table :=
  each ["def", "defonce", "defmulti"] (.indented 1 true) ++
  each ["defn", "defn-", "defmacro"] (.function true) ++
  each ["fn", "fn*"] (.function false) ++
  each ["defmethod"] .method ++
  each
    ["let", "loop", "binding", "with-open", "with-redefs", "with-local-vars", "when-let", "if-let",
     "when-some", "if-some", "when-first", "for", "doseq", "dotimes"]
    .binding ++
  each
    ["if", "if-not", "when", "when-not", "while", "letfn", "locking", "doto", "deftest", "testing",
     "defprotocol", "definterface", "extend-type", "extend-protocol", "reify"]
    (.indented 1 true) ++
  each ["defrecord", "deftype"] (.indented 2 true) ++
  each ["cond"] (.clauses 0) ++
  each ["cond->", "cond->>", "case"] (.clauses 1) ++
  each ["condp"] (.clauses 2) ++
  each ["try"] (.indented 0 true) ++
  each ["catch"] (.indented 2 true) ++
  each ["finally"] (.indented 0 true) ++
  each ["do", "comment", "future", "delay", "lazy-seq", "dosync"] (.indented 0 false) ++
  each ["ns"] .ns

end Table

end CljTidy.Layout
