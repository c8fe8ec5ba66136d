/-
  No comment swallows code.

  Leaves are fenced if a comment among them is followed by a line break.  A gap fits behind an item
  that ends with a comment only if it is a line break, and a bracket behind one goes to a line of
  its own; so the leaves of a script are fenced if those of its elements are, and those of a page
  end without a comment.  This is a law of leaves (`leafLaw_fenced`), so it is true of everything
  that comes out of a well-shaped form, namespace declarations included, and every document that
  was read comes out fenced (`leaves_render`).
-/
import CljTidy.Proofs.Layout.Readable
import CljTidy.Proofs.Layout.Shaped
import CljTidy.Proofs.Reading.Content
import Mathlib.Data.List.Chain

namespace CljTidy

/-! ## Leaves in a row -/

/-- Every comment among the leaves is followed by a line break, or it is the last leaf; and if the
    line is not closed, it is not even that. -/
structure Fenced (closed : Bool) (leaves : List Leaf) : Prop where
  chain : leaves.IsChain fun l next => l.isComment = true → next.isNewline = true
  last : closed = false → ∀ l ∈ leaves.getLast?, l.isComment = false

namespace Fenced

theorem nil (closed : Bool) : Fenced closed [] := ⟨.nil, by simp⟩

/-- One leaf is fenced; only where the end may be closed it may be a comment. -/
theorem singleton {l : Leaf} {closed : Bool} (h : closed = false → l.isComment = false) :
    Fenced closed [l] :=
  ⟨.singleton l, fun hopen => by simpa using h hopen⟩

/-- Leaves that follow in some way are fenced in the end if they were. -/
theorem append_of {closed closed' : Bool} {xs ys : List Leaf} (hx : Fenced closed xs)
    (hy : Fenced closed' ys)
    (h : ∀ x ∈ xs.getLast?, ∀ y ∈ ys.head?, x.isComment = true → y.isNewline = true)
    (hnil : ys = [] → closed' = false → closed = false) : Fenced closed' (xs ++ ys) := by
  refine ⟨List.isChain_append.mpr ⟨hx.chain, hy.chain, h⟩, fun hopen => ?_⟩
  cases ys with
  | nil =>
    rw [List.append_nil]
    exact hx.last (hnil rfl hopen)
  | cons y ys =>
    rw [List.getLast?_append_cons]
    exact hy.last hopen

/-- Anything may follow on a line that is not closed. -/
theorem append {closed : Bool} {xs ys : List Leaf} (hx : Fenced false xs)
    (hy : Fenced closed ys) : Fenced closed (xs ++ ys) := by
  refine hx.append_of hy (fun x hlast y _ hcomment => ?_) fun _ _ => rfl
  rw [hx.last rfl x hlast] at hcomment
  cases hcomment

/-- A line break may follow in any case. -/
theorem append_newline {closed closed' : Bool} {xs ys : List Leaf} {l : Leaf}
    (hx : Fenced closed xs) (hl : l.isNewline = true) (hy : Fenced closed' (l :: ys)) :
    Fenced closed' (xs ++ l :: ys) := by
  refine hx.append_of hy (fun x _ y hhead _ => ?_) fun hnil => by cases hnil
  obtain rfl : l = y := by simpa using hhead
  exact hl

/-- Where no comment is, nothing has to be fenced. -/
theorem of_no_comment {leaves : List Leaf} (h : ∀ l ∈ leaves, l.isComment = false) :
    Fenced false leaves := by
  induction leaves with
  | nil => exact nil false
  | cons l leaves ih =>
    obtain ⟨hl, hrest⟩ := List.forall_mem_cons.mp h
    exact (singleton fun _ => hl).append (ih hrest)

theorem sign (text : String) : Fenced false [.sign text] := singleton fun _ => rfl

end Fenced

namespace Layout

/-! ## Scripts -/

/-- No leaf of a gap is a comment. -/
theorem leaves_gap (g : Gap) : ∀ l ∈ Node.leavesAll g.nodes, l.isComment = false := by
  have hnoise := noise_gap g
  generalize g.nodes = ns at hnoise
  induction ns with
  | nil => rintro l ⟨⟩
  | cons n ns ih =>
    obtain ⟨hn, hrest⟩ := List.forall_mem_cons.mp hnoise
    obtain ⟨kind, text, rfl⟩ := Node.leaf_of_noise hn
    refine List.forall_mem_cons.mpr ⟨?_, ih hrest⟩
    cases kind <;> first | rfl | cases hn

theorem fenced_gap (g : Gap) : Fenced false (Node.leavesAll g.nodes) := .of_no_comment (leaves_gap g)

section

variable {Q : String → Prop}

/-- An item is fenced if its element is; it may end with its trailing comment. -/
theorem fenced_written {i : Item} (h : i.Made (fun n => Fenced false n.leaves) Q) :
    Fenced i.closesLine (Node.leavesAll i.written) := by
  cases h with
  | @comment text => exact .singleton fun hopen => by cases hopen
  | @element node marker comment form made =>
    have hopen : (⟨node, marker, none⟩ : Item).closesLine = false := by
      simp [Item.closesLine, Item.isComment, (Node.isForm_iff.mp form).2]
    have hinline : Fenced false (Node.leavesAll (Item.mk node marker comment).inlineNodes) := by
      cases marker with
      | none => simpa [Item.inlineNodes, Node.leavesAll] using made
      | some m =>
        have hmarker : Fenced false [.node .atom m, .node .space " "] :=
          .of_no_comment (by simp [Leaf.isComment])
        simpa [Item.inlineNodes, Node.leavesAll, Node.leaves] using hmarker.append made
    rw [Item.written, Node.leavesAll_append]
    cases comment with
    | none =>
      rw [hopen]
      exact hinline.append (.nil false)
    | some text =>
      have hspace : Fenced false [.node .space " "] := .singleton fun _ => rfl
      have hcomment : Fenced true [.node .comment text] := .singleton fun hopen => by cases hopen
      have hcloses : (⟨node, marker, some text⟩ : Item).closesLine = true := by
        simp [Item.closesLine]
      rw [hcloses]
      exact hinline.append (hspace.append hcomment)

/-- An item behind a gap that fits. -/
theorem fenced_placed {low : Int} {p : Placed} {before : Option Item} (hfits : p.Fits low before)
    (hitem : p.item.Made (fun n => Fenced false n.leaves) Q) {leaves : List Leaf}
    (h : Fenced (before.any Item.closesLine) leaves) :
    Fenced p.item.closesLine (leaves ++ Node.leavesAll p.nodes) := by
  have hwritten := fenced_written hitem
  have hbehind := (fenced_gap p.gap).append hwritten
  obtain ⟨gap, item⟩ := p
  rw [Placed.nodes, Node.leavesAll_append]
  cases before with
  | none => exact h.append hbehind
  | some before =>
    cases gap with
    | none => exact hfits.elim
    | space =>
      -- A space fits only behind an item that does not close its line.
      have hopen : (some before).any Item.closesLine = false := hfits.1
      rw [hopen] at h
      exact h.append hbehind
    | line column blank => exact h.append_newline rfl hbehind

/-- A script is fenced if its elements are, and it ends with a comment only if its last item
    does. -/
theorem fenced_script {low : Int} {s : Script} {before : Option Item} (hflows : Flows low before s)
    (hitems : ∀ i ∈ s.items, i.Made (fun n => Fenced false n.leaves) Q) {leaves : List Leaf}
    (h : Fenced (before.any Item.closesLine) leaves) :
    Fenced ((lastItem before s).any Item.closesLine) (leaves ++ Node.leavesAll s.nodes) := by
  induction s generalizing before leaves with
  | nil =>
    rw [Script.nodes_nil, Node.leavesAll, List.append_nil]
    exact h
  | cons p s ih =>
    obtain ⟨hp, hs⟩ := List.forall_mem_cons.mp hitems
    -- The leaves in front grow by those of one item, which is then the item in front.
    rw [Script.nodes_cons, Node.leavesAll_append, ← List.append_assoc]
    exact ih hflows.2 hs (fenced_placed hflows.1 hp h)

/-- A script closes its line just if its last item does. -/
theorem closesLine_lastItem (s : Script) : (lastItem none s).any Item.closesLine = s.closesLine := by
  rcases s.eq_nil_or_concat with rfl | ⟨s, p, rfl⟩
  · rfl
  · simp [lastItem, Script.closesLine]

/-- A page ends without a comment: the bracket goes to a line of its own. -/
theorem fenced_children {low : Int} {page : Page} (hflows : Flows low none page.script)
    (hitems : ∀ i ∈ page.script.items, i.Made (fun n => Fenced false n.leaves) Q) :
    Fenced false (Node.leavesAll page.children) := by
  have hscript := fenced_script hflows hitems (.nil false)
  rw [closesLine_lastItem, List.nil_append] at hscript
  unfold Page.children
  rw [Node.leavesAll_append]
  cases hcloses : page.script.closesLine with
  | true => exact hscript.append_newline rfl (fenced_gap (.line page.margin false))
  | false =>
    rw [hcloses] at hscript
    exact hscript.append (.nil false)

end

/-- Brackets around fenced leaves are no comments. -/
theorem fenced_enclose {b : Bracket} {leaves : List Leaf} (h : Fenced false leaves) :
    Fenced false (b.enclose leaves) := by
  unfold Bracket.enclose
  split
  · exact (Fenced.sign _).append (h.append (.sign _))
  · exact h

/-! ## Trees -/

/-- Leaves that are fenced and end without a comment make such leaves. -/
theorem leafLaw_fenced : LeafLaw (Fenced false) where
  atom _ := .singleton fun _ => rfl
  sign _ _ h := (Fenced.sign _).append h
  join _ _ _ hbefore hbehind := hbefore.append ((Fenced.sign _).append hbehind)
  page _ _ _ _ hflows hitems := fenced_enclose (fenced_children hflows hitems)

/-- Documents come out fenced; a comment may end them. -/
theorem fenced_document {table : Table} {children : List Node}
    (h : ∀ c ∈ children, c.lacks Node.misshapen = true) :
    let script := documentScript (layout table) (Item.group children)
    Fenced script.closesLine (Node.leavesAll script.nodes) := by
  have hfirst : Gap.none.Opens 0 none := rfl
  have hflows : Flows 0 none (documentScript (layout table) (Item.group children)) :=
    flows_spread (Int.le_refl 0) hfirst _
  have hscript := fenced_script hflows (leafLaw_fenced.formLaw.document h) (.nil false)
  rw [closesLine_lastItem] at hscript
  exact hscript

/-- **No comment swallows code.**  In a document that was read and laid out, namespace declarations
    or not, every comment is followed by a line break or is the last leaf. -/
theorem leaves_render {text : String} {children : List Node} (hparse : parse text = .ok children) :
    (render .standard 0 (.document children)).leaves.IsChain fun l next =>
      l.isComment = true → next.isNewline = true := by
  have hshape : ∀ c ∈ children, c.lacks Node.misshapen = true :=
    fun c hc => shape_of_sound (sound_of_parse hparse c hc)
  rw [render_document]
  exact (fenced_document hshape).chain

/-- A declaration with comments in its clauses, and a comment at the end of the text. -/
theorem leaves_render_namespace :
    ∃ children, parse "(ns a (:require c ;d\n b)) ;e" = .ok children ∧
      (render .standard 0 (.document children)).leaves.IsChain fun l next =>
        l.isComment = true → next.isNewline = true := by
  have hparse : parse "(ns a (:require c ;d\n b)) ;e" =
      .ok [.list [.atom "ns", .space " ", .atom "a", .space " ", .list [.atom ":require",
        .space " ", .atom "c", .space " ", .comment ";d", .newline "\n", .space " ", .atom "b"]],
        .space " ", .comment ";e"] := by cbv
  exact ⟨_, hparse, leaves_render hparse⟩

end Layout

end CljTidy
