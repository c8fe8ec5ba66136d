/-
  The syntax tree of a source text, trivia and comments included.

  A leaf is one token kept as it was spelled.  A branch holds the children between a pair of
  brackets; the document itself and a run of nodes that share one place are branches without
  brackets.  A wrap is a reader mark in front of exactly one form, and an annotated node is metadata
  in front of its target.  `unknown` stands for a node that nothing is known about; it cannot be
  written.
-/

namespace CljTidy

/-! ## Kinds -/

/-- What a leaf is. -/
inductive LeafKind
  | space | newline | comma | comment | atom
  deriving Repr, DecidableEq, Inhabited

/-- What a branch is. -/
inductive Bracket
  | list | vector | map | set | document | fragment
  deriving Repr, DecidableEq, Inhabited

namespace Bracket

/-- The opening bracket. -/
def opening : Bracket → String
  | list => "("
  | vector => "["
  | map => "\x7b"
  | set => "#\x7b"
  | document => ""
  | fragment => ""

/-- The closing bracket. -/
def closing : Bracket → String
  | list => ")"
  | vector => "]"
  | map => "\x7d"
  | set => "\x7d"
  | document => ""
  | fragment => ""

/-- The width of the opening bracket. -/
def width (b : Bracket) : Nat := b.opening.length

/-- The four collections. -/
def isCollection : Bracket → Bool
  | document => false
  | fragment => false
  | _ => true

end Bracket

/-- A reader mark in front of a form. -/
inductive Mark
  | quote | syntaxQuote | unquote | unquoteSplicing | varQuote | deref | fnLiteral | discard
  | conditional (splicing : Bool)
  | tagged (tag : String)
  | namespaced (ns : String)
  deriving Repr, DecidableEq, Inhabited

namespace Mark

/-- How a mark is written. -/
def spelling : Mark → String
  | quote => "'"
  | syntaxQuote => "\x60"
  | unquote => "~"
  | unquoteSplicing => "~@"
  | varQuote => "#'"
  | deref => "@"
  | fnLiteral => "#"
  | discard => "#_"
  | conditional splicing => if splicing then "#?@" else "#?"
  | tagged tag => "#" ++ tag ++ " "
  | namespaced ns => "#" ++ ns

/-- The width of a mark. -/
def width (m : Mark) : Nat := m.spelling.length

end Mark

/-! ## Nodes -/

/-- A node of the syntax tree. -/
inductive Node
  | leaf (kind : LeafKind) (text : String)
  | branch (bracket : Bracket) (children : List Node)
  | wrap (mark : Mark) (child : Node)
  | annotated (metadata target : Node)
  | unknown
  deriving Repr, Inhabited

namespace Node

/-- White space inside a line. -/
@[match_pattern] abbrev space (text : String) : Node := .leaf .space text

/-- A line break. -/
@[match_pattern] abbrev newline (text : String) : Node := .leaf .newline text

/-- A run of commas. -/
@[match_pattern] abbrev comma (text : String) : Node := .leaf .comma text

/-- A comment, up to the end of its line. -/
@[match_pattern] abbrev comment (text : String) : Node := .leaf .comment text

/-- A symbol, keyword, number, string, character, regular expression or symbolic value. -/
@[match_pattern] abbrev atom (text : String) : Node := .leaf .atom text

/-- A list. -/
@[match_pattern] abbrev list (children : List Node) : Node := .branch .list children

/-- A vector. -/
@[match_pattern] abbrev vector (children : List Node) : Node := .branch .vector children

/-- A map. -/
@[match_pattern] abbrev map (children : List Node) : Node := .branch .map children

/-- A set. -/
@[match_pattern] abbrev set (children : List Node) : Node := .branch .set children

/-- A whole document. -/
@[match_pattern] abbrev document (children : List Node) : Node := .branch .document children

/-- Nodes that share one place in their parent. -/
@[match_pattern] abbrev fragment (children : List Node) : Node := .branch .fragment children

/-- A discarded form. -/
@[match_pattern] abbrev discard (child : Node) : Node := .wrap .discard child

/-! ## Views -/

/-- White space, line breaks and commas. -/
def isNoise : Node → Bool
  | space _ => true
  | newline _ => true
  | comma _ => true
  | _ => false

/-- A comment leaf. -/
def isComment : Node → Bool
  | comment _ => true
  | _ => false

/-- A line break leaf. -/
def isNewline : Node → Bool
  | newline _ => true
  | _ => false

/-- A list. -/
def isList : Node → Bool
  | list _ => true
  | _ => false

/-- A vector. -/
def isVector : Node → Bool
  | vector _ => true
  | _ => false

/-- A map. -/
def isMap : Node → Bool
  | map _ => true
  | _ => false

/-- An atom that is a string. -/
def isString : Node → Bool
  | atom text => text.toList.head? == some '"'
  | _ => false

/-- An atom that is a keyword. -/
def isKeyword : Node → Bool
  | atom text => text.toList.head? == some ':'
  | _ => false

mutual

/-- A comment occurs somewhere in the node. -/
def containsComment : Node → Bool
  | .leaf kind _ => kind == .comment
  | .branch _ children => anyContainsComment children
  | .wrap _ child => child.containsComment
  | .annotated metadata target => metadata.containsComment || target.containsComment
  | .unknown => false

/-- A comment occurs somewhere in one of the nodes. -/
def anyContainsComment : List Node → Bool
  | [] => false
  | node :: nodes => node.containsComment || anyContainsComment nodes

end

mutual

/-- No part of the node is unknown. -/
def isKnown : Node → Bool
  | .leaf _ _ => true
  | .branch _ children => allKnown children
  | .wrap _ child => child.isKnown
  | .annotated metadata target => metadata.isKnown && target.isKnown
  | .unknown => false

/-- No part of the nodes is unknown. -/
def allKnown : List Node → Bool
  | [] => true
  | node :: nodes => node.isKnown && allKnown nodes

end

/-! ## Text -/

mutual

/-- The text of a node, as it is written. -/
def text : Node → String
  | .leaf _ text => text
  | .branch bracket children => bracket.opening ++ textAll children ++ bracket.closing
  | .wrap mark child => mark.spelling ++ child.text
  | .annotated metadata target => "^" ++ metadata.text ++ " " ++ target.text
  | .unknown => ""

/-- The text of nodes in a row. -/
def textAll : List Node → String
  | [] => ""
  | node :: nodes => node.text ++ textAll nodes

end

/-- The text of a node, if all its parts can be written. -/
def written? (node : Node) : Option String := if node.isKnown then some node.text else none

/-! ## Equality -/

mutual

/-- Structural equality. -/
def beq : Node → Node → Bool
  | .leaf k t, .leaf k' t' => k == k' && t == t'
  | .branch b cs, .branch b' cs' => b == b' && beqAll cs cs'
  | .wrap m n, .wrap m' n' => m == m' && beq n n'
  | .annotated m n, .annotated m' n' => beq m m' && beq n n'
  | .unknown, .unknown => true
  | _, _ => false

/-- Structural equality, node by node. -/
def beqAll : List Node → List Node → Bool
  | [], [] => true
  | n :: ns, n' :: ns' => beq n n' && beqAll ns ns'
  | _, _ => false

end

mutual

/-- Nodes that compare equal are equal. -/
theorem eq_of_beq : (a b : Node) → beq a b = true → a = b
  | .leaf .., b, h => by cases b <;> simp_all [beq]
  | .branch _ cs, b, h => by
      cases b <;> simp [beq] at h ⊢
      exact ⟨h.1, eq_of_beqAll cs _ h.2⟩
  | .wrap _ n, b, h => by
      cases b <;> simp [beq] at h ⊢
      exact ⟨h.1, eq_of_beq n _ h.2⟩
  | .annotated m n, b, h => by
      cases b <;> simp [beq] at h ⊢
      exact ⟨eq_of_beq m _ h.1, eq_of_beq n _ h.2⟩
  | .unknown, b, h => by cases b <;> simp_all [beq]

theorem eq_of_beqAll : (as bs : List Node) → beqAll as bs = true → as = bs
  | [], bs, h => by cases bs <;> simp_all [beqAll]
  | n :: ns, bs, h => by
      cases bs <;> simp [beqAll] at h ⊢
      exact ⟨eq_of_beq n _ h.1, eq_of_beqAll ns _ h.2⟩

end

mutual

/-- Every node compares equal to itself. -/
theorem beq_self : (a : Node) → beq a a = true
  | .leaf .. => by simp [beq]
  | .branch _ cs => by simp [beq, beqAll_self cs]
  | .wrap _ n => by simp [beq, beq_self n]
  | .annotated m n => by simp [beq, beq_self m, beq_self n]
  | .unknown => by simp [beq]

theorem beqAll_self : (as : List Node) → beqAll as as = true
  | [] => by simp [beqAll]
  | n :: ns => by simp [beqAll, beq_self n, beqAll_self ns]

end

instance : DecidableEq Node := fun a b =>
  decidable_of_iff (beq a b = true) ⟨eq_of_beq a b, fun h => h ▸ beq_self a⟩

end Node

end CljTidy
