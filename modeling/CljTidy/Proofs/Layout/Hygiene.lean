/-
  No stray white space.

  Go over the leaves of a tree and remember only how they trail off: in something visible, in a
  space, in a line break or in an empty line (`Trail`).  A leaf that must not stand where it does
  ends the walk.  Leaves are solid if the walk takes them from any trail to a visible end; gaps can
  be walked behind something visible, and an item is solid if its element is, so pages are solid if
  their elements are (`leafLaw_solid`).  A document is a row of solid items with gaps between them,
  and a walk that gets to its end is all that hygiene asks (`hygienic_of_walk`, `hygienic_render`).
-/
import CljTidy.Proofs.Layout.Readable
import CljTidy.Proofs.Layout.Shaped
import CljTidy.Proofs.Reading.Content
import Mathlib.Data.List.Basic

namespace CljTidy

/-! ## Hygiene -/

namespace Leaf

/-- White space inside a line. -/
def isSpace : Leaf → Bool
  | node .space _ => true
  | _ => false

/-- A run of commas. -/
def isComma : Leaf → Bool
  | node .comma _ => true
  | _ => false

end Leaf

/-- White space is in order: spaces stand in front of something visible, there is at most one empty
    line in a row, line breaks stand between other things, and there are no commas. -/
structure Hygienic (leaves : List Leaf) : Prop where
  space : ∀ l next, [l, next] <:+: leaves → l.isSpace = true →
    next.isSpace = false ∧ next.isNewline = false
  newlines : ∀ a b c, [a, b, c] <:+: leaves →
    ¬(a.isNewline = true ∧ b.isNewline = true ∧ c.isNewline = true)
  first : ∀ l ∈ leaves.head?, l.isNewline = false
  last : ∀ l ∈ leaves.getLast?, l.isSpace = false ∧ l.isNewline = false
  comma : ∀ l ∈ leaves, l.isComma = false

/-! ## Trails -/

/-- What leaves so far trail off in: something visible, a space, a line break, an empty line. -/
inductive Trail
  | visible | space | line | empty
  deriving Repr, DecidableEq

namespace Trail

/-- The trail behind one more leaf, if the leaf may stand there. -/
def next : Trail → Leaf → Option Trail
  | _, .node .comma _ => none
  | .space, .node .space _ => none
  | _, .node .space _ => some .space
  | .visible, .node .newline _ => some .line
  | .line, .node .newline _ => some .empty
  | _, .node .newline _ => none
  | _, _ => some .visible

/-- The trail behind leaves, if all of them may stand where they do. -/
def walk (s : Trail) (leaves : List Leaf) : Option Trail := leaves.foldlM next s

theorem walk_cons (s : Trail) (l : Leaf) (leaves : List Leaf) :
    s.walk (l :: leaves) = (s.next l).bind (walk · leaves) := by
  simp [walk, List.foldlM_cons]

/-- A walk over two parts goes over the first one, then over the second from where it got to. -/
theorem walk_append (s : Trail) (xs ys : List Leaf) :
    s.walk (xs ++ ys) = (s.walk xs).bind (walk · ys) := by
  simp [walk, List.foldlM_append]

/-- A walk goes through every part of the leaves. -/
theorem walk_infix {s t : Trail} {leaves part : List Leaf} (h : s.walk leaves = some t)
    (hpart : part <:+: leaves) : ∃ s' t', walk s' part = some t' := by
  obtain ⟨front, behind, rfl⟩ := hpart
  rw [walk_append, Option.bind_eq_some_iff] at h
  obtain ⟨t', hpart, -⟩ := h
  rw [walk_append, Option.bind_eq_some_iff] at hpart
  obtain ⟨s', -, hpart⟩ := hpart
  exact ⟨s', t', hpart⟩

end Trail

open Trail in
/-- **Hygiene.**  A walk that sets out as behind a space, and ends in something visible if there is
    anything at all, finds white space in order. -/
theorem hygienic_of_walk {leaves : List Leaf} {t : Trail} (h : Trail.space.walk leaves = some t)
    (hend : leaves ≠ [] → t = .visible) : Hygienic leaves where
  space l next hpart hl := by
    obtain ⟨s, t, hwalk⟩ := walk_infix h hpart
    rcases l with ⟨_ | _ | _ | _ | _, text⟩ | text <;> cases hl
    rcases next with ⟨_ | _ | _ | _ | _, text⟩ | text <;> cases s <;>
      first | exact ⟨rfl, rfl⟩ | cases hwalk
  newlines a b c hpart hall := by
    obtain ⟨s, t, hwalk⟩ := walk_infix h hpart
    obtain ⟨ha, hb, hc⟩ := hall
    rcases a with ⟨_ | _ | _ | _ | _, text⟩ | text <;> cases ha
    rcases b with ⟨_ | _ | _ | _ | _, text⟩ | text <;> cases hb
    rcases c with ⟨_ | _ | _ | _ | _, text⟩ | text <;> cases hc
    cases s <;> cases hwalk
  first l hl := by
    cases leaves with
    | nil => cases hl
    | cons first leaves =>
      cases hl
      rw [walk_cons] at h
      rcases l with ⟨_ | _ | _ | _ | _, text⟩ | text <;> first | rfl | cases h
  last l hl := by
    obtain ⟨front, rfl⟩ := List.getLast?_eq_some_iff.mp hl
    obtain rfl := hend (by simp)
    rw [walk_append, Option.bind_eq_some_iff] at h
    obtain ⟨s, -, hlast⟩ := h
    rcases l with ⟨_ | _ | _ | _ | _, text⟩ | text <;> cases s <;>
      first | exact ⟨rfl, rfl⟩ | cases hlast
  comma l hl := by
    obtain ⟨front, behind, hleaves⟩ := List.append_of_mem hl
    have hpart : [l] <:+: leaves := ⟨front, behind, by simp [hleaves]⟩
    obtain ⟨s, t, hwalk⟩ := walk_infix h hpart
    rcases l with ⟨_ | _ | _ | _ | _, text⟩ | text <;> first | rfl | (cases s <;> cases hwalk)

/-! ## Solid leaves -/

/-- Wherever the leaves stand, they may stand there, and they end in something visible. -/
def Solid (leaves : List Leaf) : Prop := ∀ s : Trail, s.walk leaves = some .visible

/-- The leaves may stand behind something visible. -/
def Walkable (leaves : List Leaf) : Prop := ∃ s, Trail.visible.walk leaves = some s

namespace Solid

/-- Solid leaves behind each other are solid. -/
theorem append {xs ys : List Leaf} (hx : Solid xs) (hy : Solid ys) : Solid (xs ++ ys) := by
  intro s
  rw [Trail.walk_append, hx s]
  exact hy .visible

/-- What may stand behind something visible may stand between solid leaves. -/
theorem between {xs mid ys : List Leaf} (hx : Solid xs) (hmid : Walkable mid) (hy : Solid ys) :
    Solid (xs ++ (mid ++ ys)) := by
  intro s
  obtain ⟨t, hmid⟩ := hmid
  rw [Trail.walk_append, hx s, Option.bind_some, Trail.walk_append, hmid]
  exact hy t

/-- A bracket or a mark is solid. -/
theorem sign (text : String) : Solid [.sign text] := by
  intro s
  cases s <;> rfl

theorem atom (text : String) : Solid [.node .atom text] := by
  intro s
  cases s <;> rfl

/-- A comment is as visible as anything: what ends its line is another matter. -/
theorem comment (text : String) : Solid [.node .comment text] := by
  intro s
  cases s <;> rfl

end Solid

theorem walkable_space (text : String) : Walkable [.node .space text] := ⟨.space, rfl⟩

namespace Layout

/-! ## Scripts -/

/-- **Gaps** may stand behind something visible: a space, a line break or an empty line, and its
    indentation. -/
theorem walkable_gap (g : Gap) : Walkable (Node.leavesAll g.nodes) := by
  cases g with
  | none => exact ⟨.visible, rfl⟩
  | space => exact walkable_space " "
  | line column blank =>
    unfold Gap.nodes Buffer.breakNodes
    cases blank <;> by_cases hcolumn : column = 0 <;> simp only [hcolumn] <;> exact ⟨_, rfl⟩

section

variable {Q : String → Prop}

/-- An item is solid if its element is. -/
theorem solid_written {i : Item} (h : i.Made (fun n => Solid n.leaves) Q) :
    Solid (Node.leavesAll i.written) := by
  cases h with
  | @comment text => exact Solid.comment text
  | @element node marker comment form made =>
    have hinline : Solid (Node.leavesAll (Item.mk node marker comment).inlineNodes) := by
      cases marker with
      | none => simpa [Item.inlineNodes, Node.leavesAll] using made
      | some m =>
        have hmarked := (Solid.atom m).between (walkable_space " ") made
        simpa [Item.inlineNodes, Node.leavesAll, Node.leaves] using hmarked
    rw [Item.written, Node.leavesAll_append]
    cases comment with
    | none => simpa [Item.trailingNodes, Node.leavesAll] using hinline
    | some text => exact hinline.between (walkable_space " ") (Solid.comment text)

/-- Behind something visible, a script ends in something visible. -/
theorem walk_script {s : Script} (h : ∀ i ∈ s.items, i.Made (fun n => Solid n.leaves) Q) :
    Trail.visible.walk (Node.leavesAll s.nodes) = some .visible := by
  induction s with
  | nil => rfl
  | cons p s ih =>
    obtain ⟨hp, hs⟩ := List.forall_mem_cons.mp h
    obtain ⟨t, hgap⟩ := walkable_gap p.gap
    rw [Script.nodes_cons, Placed.nodes, Node.leavesAll_append, Node.leavesAll_append,
      Trail.walk_append, Trail.walk_append, hgap, Option.bind_some, solid_written hp t]
    exact ih hs

/-- The children of a page may stand behind its bracket. -/
theorem walkable_children {page : Page}
    (h : ∀ i ∈ page.script.items, i.Made (fun n => Solid n.leaves) Q) :
    Walkable (Node.leavesAll page.children) := by
  unfold Page.children
  rw [Node.leavesAll_append]
  have hbreak : Walkable (Node.leavesAll
      (if page.script.closesLine then (Gap.line page.margin false).nodes else [])) := by
    split
    · exact walkable_gap _
    · exact ⟨.visible, rfl⟩
  obtain ⟨t, hbreak⟩ := hbreak
  exact ⟨t, by rw [Trail.walk_append, walk_script h]; exact hbreak⟩

end

/-! ## Trees -/

/-- Brackets enclose what may stand behind them, and are visible themselves. -/
theorem leafLaw_solid : LeafLaw Solid where
  atom := Solid.atom
  sign _ _ h := (Solid.sign _).append h
  join _ _ _ hbefore hbehind := hbefore.append ((Solid.sign _).append hbehind)
  page _ b _ hb _ hitems := by
    rw [Bracket.enclose, if_pos hb]
    exact (Solid.sign _).between (walkable_children hitems) (.sign _)

/-- A document can be walked from its start to its end. -/
theorem walk_document {table : Table} {children : List Node}
    (h : ∀ c ∈ children, c.lacks Node.misshapen = true) :
    let leaves := Node.leavesAll (documentScript (layout table) (Item.group children)).nodes
    ∃ t, Trail.space.walk leaves = some t ∧ (leaves ≠ [] → t = .visible) := by
  have hmade : ∀ i ∈ (documentScript (layout table) (Item.group children)).items,
      i.Made (fun n => Solid n.leaves) fun _ => True := leafLaw_solid.formLaw.document h
  unfold documentScript at hmade ⊢
  generalize (Item.group children).flatMap (settled (layout table) 0) = items at hmade
  -- Nothing stands in front of the first item, and something visible in front of all others.
  cases items with
  | nil => exact ⟨.space, rfl, fun hne => absurd rfl hne⟩
  | cons i items =>
    obtain ⟨hi, hitems⟩ := List.forall_mem_cons.mp hmade
    refine ⟨.visible, ?_, fun _ => rfl⟩
    rw [spread, Script.nodes_cons, Node.leavesAll_append, Trail.walk_append]
    show (Trail.space.walk (Node.leavesAll i.written)).bind _ = _
    rw [solid_written hi .space]
    exact walk_script hitems

/-- **White space is in order.**  In a document that was read and laid out, namespace declarations
    or not, no space stands in front of a space or of a line break or at the end, there is at most
    one empty line in a row, no line break comes first or last, and there are no commas. -/
theorem hygienic_render {text : String} {children : List Node}
    (hparse : parse text = .ok children) :
    Hygienic (render .standard 0 (.document children)).leaves := by
  have hshape : ∀ c ∈ children, c.lacks Node.misshapen = true :=
    fun c hc => shape_of_sound (sound_of_parse hparse c hc)
  obtain ⟨t, hwalk, hend⟩ := walk_document hshape
  rw [render_document]
  exact hygienic_of_walk hwalk hend

/-- A declaration with commas and comments, a comment lifted over a mark, and empty lines. -/
theorem hygienic_render_namespace :
    ∃ children, parse "(ns a, (:require c ;d\n))\n\n\n'  ;e\n [] " = .ok children ∧
      Hygienic (render .standard 0 (.document children)).leaves := by
  have hparse : parse "(ns a, (:require c ;d\n))\n\n\n'  ;e\n [] " =
      .ok [.list [.atom "ns", .space " ", .atom "a", .comma ",", .space " ",
        .list [.atom ":require", .space " ", .atom "c", .space " ", .comment ";d", .newline "\n"]],
        .newline "\n", .newline "\n", .newline "\n", .comment ";e", .newline "\n",
        .wrap .quote (.vector []), .space " "] := by cbv
  exact ⟨_, hparse, hygienic_render hparse⟩

end Layout

end CljTidy
