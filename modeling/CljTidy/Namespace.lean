/-
  Namespace declarations in canonical order.

  A clause is a list with a keyword as its head.  Clauses are ordered by kind: other clauses, then
  the require family, then imports; what stands before the first clause stays in front.  Inside a
  require or import clause every entry takes its canonical bracket, and entries are ordered by their
  text on a single line.  A comment on its own line travels with the clause or entry behind it.
-/
import CljTidy.Layout.Flat

namespace CljTidy.Namespace

/-! ## Clauses -/

/-- The keywords of the require family. -/
def requireKeywords : List String := [":require", ":require-macros", ":use", ":use-macros"]

/-- The keywords of imports. -/
def importKeywords : List String := [":import"]

/-- What a clause is. -/
inductive ClauseKind
  | other | requires | imports
  deriving Repr, DecidableEq

/-- The place of a kind of clause in the order, from one. -/
def ClauseKind.rank : ClauseKind → Nat
  | other => 1
  | requires => 2
  | imports => 3

/-- The kind of clause that a keyword heads. -/
def ClauseKind.ofKeyword (keyword : String) : ClauseKind :=
  if keyword ∈ requireKeywords then .requires
  else if keyword ∈ importKeywords then .imports
  else .other

/-- The keyword that heads a list. -/
def clauseKeyword? : Node → Option String
  | .list children =>
      match (Item.splitHead (Item.group children)).2.1 with
      | some head => if head.element.isKeyword then some head.element.text else none
      | none => none
  | _ => none

/-- What kind of clause a node is, if it is one. -/
def clauseKind? (node : Node) : Option ClauseKind := (clauseKeyword? node).map .ofKeyword

/-! ## Entries -/

/-- An entry of the require family: a bare symbol and a library specification go into a vector; a
    list of libraries under a common name stays a list. -/
def requireEntry (node : Node) : Node :=
  match node with
  | .atom _ => if node.isKeyword || node.isString then node else .vector [node]
  | .list children =>
      match Item.elements (Item.group children) with
      | _ :: second :: _ => if second.element.isKeyword then .vector children else node
      | _ => .vector children
  | _ => node

/-- What stands before and behind the last dot of a name. -/
def splitLastDot (name : List Char) : List Char × List Char :=
  let back := name.reverse
  ((back.dropWhile (· ≠ '.')).tail.reverse, (back.takeWhile (· ≠ '.')).reverse)

/-- The two parts of a name with the dot between them are the name. -/
theorem splitLastDot_append {name : List Char} (h : '.' ∈ name) :
    (splitLastDot name).1 ++ '.' :: (splitLastDot name).2 = name := by
  have hmem : '.' ∈ name.reverse := List.mem_reverse.mpr h
  have hback := List.takeWhile_append_dropWhile (p := (· ≠ '.')) (l := name.reverse)
  have hdot : ∃ rest, name.reverse.dropWhile (· ≠ '.') = '.' :: rest := by
    generalize name.reverse = back at hmem
    induction back with
    | nil => simp at hmem
    | cons c cs ih =>
      by_cases hc : c = '.'
      · exact ⟨cs, by simp [hc]⟩
      · have : '.' ∈ cs := (List.mem_cons.mp hmem).resolve_left fun h => hc h.symm
        simpa [hc] using ih this
  obtain ⟨rest, hrest⟩ := hdot
  rw [hrest] at hback
  have := congrArg List.reverse hback
  simp only [List.reverse_append, List.reverse_cons, List.reverse_reverse, List.append_assoc,
    List.singleton_append] at this
  simp only [splitLastDot, hrest, List.tail_cons]
  exact this

/-- An entry of an import: a vector becomes a list, and a qualified class becomes a list of its
    package and its name. -/
def importEntry (node : Node) : Node :=
  match node with
  | .vector children => .list children
  | .atom text =>
      if '.' ∈ text.toList && !node.isKeyword && !node.isString then
        let (package, name) := splitLastDot text.toList
        .list [.atom (String.ofList package), .space " ", .atom (String.ofList name)]
      else node
  | _ => node

/-- The canonical form of an entry in a kind of clause. -/
def ClauseKind.entry : ClauseKind → Node → Node
  | .requires, node => requireEntry node
  | .imports, node => importEntry node
  | .other, node => node

/-! ## Blocks -/

/-- An item with the comments on the lines above it. -/
structure Block where
  comments : List Item
  item : Item
  deriving Repr, DecidableEq

namespace Block

/-- The items of a block. -/
def items (block : Block) : List Item := block.comments ++ [block.item]

/-- Cuts items into blocks; the comments behind the last item are left over.  `pending` holds the
    comments read since the last item. -/
def cutFrom : List Item → List Item → List Block × List Item
  | pending, [] => ([], pending)
  | pending, item :: items =>
      if item.isComment then cutFrom (pending ++ [item]) items
      else
        let (blocks, rest) := cutFrom [] items
        (⟨pending, item⟩ :: blocks, rest)

/-- Cuts items into blocks; the comments behind the last item are left over. -/
def cut (items : List Item) : List Block × List Item := cutFrom [] items

/-- The same comments over another element. -/
def mapElement (f : Node → Node) (block : Block) : Block :=
  { block with item := { block.item with element := f block.item.element } }

/-- The text that entries are ordered by. -/
def sortKey (block : Block) : String := block.item.element.flatten.text

end Block

/-! ## Canonical clauses and declarations -/

/-- A require or import clause with its entries in canonical form and order; any other node. -/
def normalizeClause (node : Node) : Node :=
  match clauseKind? node, node with
  | some .other, _ => node
  | some kind, .branch bracket children =>
      let (leading, head, entries) := Item.splitHead (Item.group children)
      let (blocks, trailing) := Block.cut entries
      let sorted := (blocks.map (Block.mapElement kind.entry)).mergeSort fun a b =>
        a.sortKey ≤ b.sortKey
      .branch bracket
        (Item.ungroup (leading ++ head.toList ++ sorted.flatMap Block.items ++ trailing))
  | _, _ => node

/-- The place of each block in a declaration: clauses by kind, anything else in front until a clause
    was seen and with the other clauses from then on. -/
def rankBlocks : Bool → List Block → List (Nat × Block)
  | _, [] => []
  | seen, block :: blocks =>
      match clauseKind? block.item.element with
      | some kind => (kind.rank, block.mapElement normalizeClause) :: rankBlocks true blocks
      | none => (if seen then ClauseKind.rank .other else 0, block) :: rankBlocks seen blocks

/-- The items behind the head of a declaration, in canonical order. -/
def normalizeDeclarations (items : List Item) : List Item :=
  let (blocks, trailing) := Block.cut items
  let sorted := (rankBlocks false blocks).mergeSort fun a b => a.1 ≤ b.1
  sorted.flatMap (fun ranked => ranked.2.items) ++ trailing

/-- Entries are ordered by their text, so every require and import clause has to be writable. -/
def canOrder (items : List Item) : Bool :=
  items.all fun item =>
    match clauseKind? item.element with
    | some .requires => item.element.isKnown
    | some .imports => item.element.isKnown
    | _ => true

/-- A collection headed by `ns` in canonical order; nothing for any other node. -/
def normalize? : Node → Option Node
  | .branch bracket children =>
      let (leading, head, items) := Item.splitHead (Item.group children)
      match head with
      | some head =>
          if head.element = .atom "ns" then
            some (.branch bracket
              (Item.ungroup (leading ++ head :: normalizeDeclarations items)))
          else none
      | none => none
  | _ => none

/-- A node in canonical order, if it is a namespace declaration. -/
def normalize (node : Node) : Node := (normalize? node).getD node

end CljTidy.Namespace
