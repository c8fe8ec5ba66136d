/-
  Trees that are laid out already.

  A form is steady if what comes out of it comes out the same once more, at the same place and
  column, and no comment leaves it then.  A collection is steady if its elements are: its items are
  found again, they have the same faces and so the same plan, and pages are repeated.  By induction
  every regular form without a comment behind an `&` is steady (`steady_lay`), and a document that
  was laid out is not changed (`documentScript_again`): layout is idempotent (`layout_layout`).
-/
import CljTidy.Proofs.Layout.Readable
import CljTidy.Proofs.Layout.Regroup
import CljTidy.Proofs.Layout.Replay
import CljTidy.Proofs.Layout.Shape

namespace CljTidy.Layout

/-- What comes out comes out the same once more, and nothing leaves it. -/
structure Steady (lay : Lay) (column : Int) (n : Node) : Prop where
  node : (lay column (lay column n).node).node = (lay column n).node
  hoisted : (lay column (lay column n).node).hoisted = []

section

variable {lay : Lay} (hlay : KeepsFace lay) {i : Item}

include hlay

/-- What an item comes out as once more. -/
theorem settle_settle (hi : i.isComment = false) (column : Int) :
    settle lay column (settle lay column i) =
      let c := column + Draft.markerWidth i.marker
      ⟨(lay c (lay c i.element).node).node, i.marker, i.comment.map Comment.tidy⟩ := by
  have hopen := (hlay.isComment_settle column i).trans hi
  have htidy : (i.comment.map Comment.tidy).map Comment.tidy = i.comment.map Comment.tidy := by
    cases i.comment with
    | none => rfl
    | some text => exact congrArg some (Comment.tidy_tidy text)
  rw [settle, if_neg (Bool.eq_false_iff.mp hopen), settle, if_neg (Bool.eq_false_iff.mp hi)]
  simp only [htidy]

/-- What leaves an item that came out. -/
theorem leaving_settle (hi : i.isComment = false) (column : Int) :
    leaving lay column (settle lay column i) =
      let c := column + Draft.markerWidth i.marker
      (lay c (lay c i.element).node).hoisted := by
  have hopen := (hlay.isComment_settle column i).trans hi
  rw [leaving, if_neg (Bool.eq_false_iff.mp hopen), settle, if_neg (Bool.eq_false_iff.mp hi)]

/-- Items with steady elements come to rest. -/
theorem rests_of_steady (h : i.isComment = false → ∀ c, Steady lay c i.element) : Rests lay i := by
  intro column
  cases hi : i.isComment with
  | true =>
    have hcomment : settle lay column i = .ofComment i.element.text := if_pos hi
    rw [hcomment]
    exact fixed_ofComment _ _ _
  | false =>
    obtain ⟨hnode, hhoisted⟩ := h hi (column + Draft.markerWidth i.marker)
    constructor
    · rw [settle_settle hlay hi, settle, if_neg (Bool.eq_false_iff.mp hi)]
      simp only [hnode]
    · rw [leaving_settle hlay hi]
      exact hhoisted

end

/-- Items with steady elements settle. -/
theorem settles_of_steady {lay : Lay} (hlay : Faithful lay) {i : Item}
    (h : i.isComment = false → ∀ (place : Place) (c : Int),
      Steady (place.lay lay) c i.element) : Settles lay i :=
  fun place => rests_of_steady (hlay place) fun hi c => h hi place c

/-! ## Items of a page -/

/-- Faces can be read off elements with their markers. -/
theorem faces_eq (items : List Item) :
    Item.faces items = (Item.cores items).map fun c => ⟨c.1.face, c.2, none⟩ := by
  simp [Item.faces, Item.cores, Item.face, Item.core]

section

variable {site : Lay → Int → Prop} {ps : List Placing} {items out : List Item}
  {leaving : List String} (h : Accounts site ps items out leaving)

include h

theorem faces_of_accounts : Item.faces out = Item.faces items := by
  rw [faces_eq, faces_eq, h.input, h.output, List.map_map, List.map_map]
  refine List.map_congr_left fun p hp => ?_
  simp only [Function.comp_apply, h.face hp]

/-- Tame items come out tame. -/
theorem tame_of_accounts (htame : Item.Tame (Item.cores items))
    (hstray : Item.stray ∈ Item.cores items → Item.EndsOpen items) :
    Item.Tame (Item.cores out) ∧ (Item.stray ∈ Item.cores out → Item.EndsOpen out) := by
  have hlone : ∀ p ∈ ps, (p.rendered.node, p.marker) = Item.stray →
      (p.element, p.marker) = Item.stray := by
    intro p hp heq
    injection heq with hnode hmarker
    have hatom := h.face hp
    rw [hnode] at hatom
    rw [Node.atom_of_face hatom.symm, hmarker]
    rfl
  rw [h.input, Item.Tame, ← List.map_dropLast] at htame
  rw [h.output, Item.Tame, ← List.map_dropLast]
  constructor
  · intro c hc
    obtain ⟨p, hp, rfl⟩ := List.mem_map.mp hc
    obtain ⟨hdepth, hne⟩ := htame _ (List.mem_map_of_mem hp)
    have hmem : p ∈ ps := List.dropLast_subset ps hp
    refine ⟨?_, fun heq => hne (hlone p hmem heq)⟩
    show p.rendered.node.discardDepth ≤ 1
    rw [← Node.discardDepth_face, h.face hmem, Node.discardDepth_face]
    exact hdepth
  · intro hmem
    obtain ⟨p, hp, heq⟩ := List.mem_map.mp hmem
    refine h.ends (hstray ?_)
    rw [h.input, ← hlone p hp heq]
    exact List.mem_map_of_mem hp

end

/-! ## Collections -/

variable {table : Table}

/-- The items of children that were written are found again. -/
theorem group_again {P : Node → Prop} {Q : String → Prop} {site : Lay → Int → Prop} {low : Int}
    {children : List Node} (hmade : ∀ i ∈ Item.group children, i.Made P Q)
    (hdangles : Node.markerDangles children = false)
    {script : Script} {leaving : List String} (hflows : Flows low none script)
    (haccount : Account site (Item.group children) script.items leaving)
    (ns : List Node) (hnoise : ∀ n ∈ ns, n.isNoise = true) :
    Item.group (script.nodes ++ ns) = script.items := by
  obtain ⟨ps, h⟩ := haccount
  have hmade : ∀ i ∈ script.items, i.Made (fun _ => True) fun _ => True :=
    h.made hmade (fun _ _ _ _ => trivial) fun _ _ => trivial
  obtain ⟨htame, hstray⟩ := tame_group hdangles
  obtain ⟨htame', hstray'⟩ := tame_of_accounts h htame hstray
  exact group_script hflows hmade htame' hstray' hnoise

/-- The items of a page are found again in its children. -/
theorem group_page {P : Node → Prop} {Q : String → Prop} {site : Lay → Int → Prop} {low : Int}
    {children : List Node} (hmade : ∀ i ∈ Item.group children, i.Made P Q)
    (hdangles : Node.markerDangles children = false) {page : Page}
    (hflows : Flows low none page.script) {leaving : List String}
    (haccount : Account site (Item.group children) page.script.items leaving) :
    Item.group page.children = page.script.items := by
  refine group_again hmade hdangles hflows haccount _ fun n hn => ?_
  split at hn
  · exact noise_gap _ n hn
  · cases hn

theorem steady_branch {b : Bracket} {children : List Node} (hb : b.isCollection = true)
    (hregular : ∀ c ∈ children, Regular table c)
    (hdeclares : declares table (.branch b children) = false)
    (hdangles : Node.markerDangles children = false)
    (ih : ∀ i ∈ Item.group children, i.isComment = false → ∀ (place : Place) (c : Int),
      Steady (place.lay (layout table)) c i.element)
    (place : Place) (column : Int) :
    Steady (place.lay (layout table)) column (.branch b children) := by
  have hlay := faithful_layout table
  obtain ⟨plan, hplan⟩ := exists_plan hdeclares place
  have hindents := indents_plan hplan
  obtain ⟨low, hlow, hc⟩ := exists_low column
  obtain ⟨hnode, -⟩ := shows_layout hb hplan column
  obtain ⟨hflows, -⟩ := flows_page hlay hindents hlow hc b (Item.group children)
  have haccount := account_page (serves_somewhere hlay low) hindents hlow hc b (Item.group children)
  have hagain := page_again hlay plan column b
    fun i hi => settles_of_steady (i := i) hlay (ih i hi)
  -- What is written is grouped into the same items, and these have the same plan.
  have hgroup := group_page (made_of_regular hregular) hdangles hflows haccount
  have hplan' : place.plan? table b
      (Item.group (plan.page (layout table) column b (Item.group children)).children) =
      some plan := by
    obtain ⟨ps, h⟩ := haccount
    rw [hgroup, ← plan_faces, faces_of_accounts h, plan_faces, hplan]
  obtain ⟨hnode', hhoisted'⟩ := shows_layout hb hplan' column
  rw [hgroup, hagain] at hnode' hhoisted'
  exact ⟨by rw [hnode, hnode']; rfl, by rw [hnode, hhoisted']⟩

/-! ## Trees -/

/-- A kind of node that discards are not of is lacking in the elements if it is in the children. -/
theorem lacks_element {kind : Node → Bool} (hkind : ∀ n, kind (.discard n) = false)
    {children : List Node} (hregular : ∀ c ∈ children, Regular table c)
    (h : ∀ c ∈ children, c.lacks kind = true) {i : Item} (hi : i ∈ Item.group children)
    (hnot : i.isComment = false) : i.element.lacks kind = true := by
  have hmade := made_group (P := fun n => Regular table n ∧ n.lacks kind = true)
    (Q := fun _ => True)
    (fun n hform hn => ⟨hn.1.discard hform, Node.lacks_wrap.mpr ⟨hkind n, hn.2⟩⟩)
    (fun n hn => ⟨hn.1.wrap.1, hn.1.wrap.2, (Node.lacks_wrap.mp hn.2).2⟩)
    (fun c hc _ => ⟨hregular c hc, h c hc⟩) (fun _ _ => trivial) i hi
  cases hmade with
  | comment => cases hnot
  | element form made => exact made.2

theorem steady_leaf (place : Place) (column : Int) (kind : LeafKind) (text : String) :
    Steady (place.lay (layout table)) column (.leaf kind text) := by
  constructor
  · cases kind with
    | comment => simp only [lay_leaf, tidyLeaf, Comment.tidy_tidy]
    | _ => simp only [lay_leaf, tidyLeaf]
  · cases kind <;> simp only [lay_leaf, tidyLeaf]

/-- **Steady.**  A regular form without a comment behind an `&` is steady. -/
theorem steady_lay (n : Node) (hregular : Regular table n) (hform : n.isForm = true)
    (hdangles : n.lacks Node.danglesMarker = true) :
    ∀ (place : Place) (column : Int), Steady (place.lay (layout table)) column n := by
  revert hdangles
  refine regular_induction (P := fun n => n.lacks Node.danglesMarker = true →
    ∀ (place : Place) (column : Int), Steady (place.lay (layout table)) column n)
    ?_ ?_ ?_ ?_ n hregular hform
  · exact fun text _ place column => steady_leaf place column .atom text
  · intro b cs hb hcs hdeclares ih hlacks place column
    obtain ⟨hdangles, hchildren⟩ := Node.lacks_branch.mp hlacks
    refine steady_branch hb hcs hdeclares hdangles (fun i hi hnot => ?_) place column
    exact ih i hi hnot (lacks_element (fun _ => rfl) hcs hchildren hi hnot)
  · intro m n _ ih hlacks place column
    have h := ih (Node.lacks_wrap.mp hlacks).2 (Mark.place m) (column + m.width)
    constructor
    · simp only [lay_wrap, h.node]
    · simp only [lay_wrap, h.hoisted]
  · intro m t _ _ ihm iht hlacks place column
    obtain ⟨-, hlm, hlt⟩ := Node.lacks_annotated.mp hlacks
    have hm : Steady (layout table) (column + 1) m := ihm hlm .plain (column + 1)
    have ht : ∀ c, Steady (layout table) c t := iht hlt .plain
    constructor
    · simp only [lay_annotated, hm.node, (ht _).node]
    · simp only [lay_annotated, hm.node, hm.hoisted, (ht _).hoisted, List.append_nil]

/-- **Documents again.**  The script of what a document was written as is that script. -/
theorem documentScript_again {children : List Node} (hregular : ∀ c ∈ children, Regular table c)
    (hdangles : (Node.document children).lacks Node.danglesMarker = true) :
    documentScript (layout table)
        (Item.group (documentScript (layout table) (Item.group children)).nodes) =
      documentScript (layout table) (Item.group children) := by
  have hlay := faithful_layout table
  obtain ⟨hmarkers, hlacks⟩ := Node.lacks_branch.mp hdangles
  have hsettles : ∀ i ∈ Item.group children, Settles (layout table) i := by
    intro i hi
    refine settles_of_steady hlay fun hnot => ?_
    have hlack := lacks_element (fun _ => rfl) hregular hlacks hi hnot
    cases made_of_regular hregular i hi with
    | comment => cases hnot
    | element form made => exact steady_lay _ made form hlack
  have hfirst : Gap.none.Opens 0 none := rfl
  have hgroup := group_again (made_of_regular hregular) hmarkers
    (flows_spread (Int.le_refl 0) hfirst _) (account_document table children) []
    (by rintro n ⟨⟩)
  rw [List.append_nil] at hgroup
  have hagain := settledAll_again (fun i hi => hsettles i hi .plain) 0
  unfold documentScript
  rw [hgroup, items_spread]
  exact congrArg (spread .none) hagain

/-- **Layout is idempotent.**  Under a table without the rule for declarations, what comes out of a
    tree that no `&` with a comment next occurs in is left as it is at its column, and no comment
    leaves it. -/
theorem layout_layout {table : Table} (htable : ∀ entry ∈ table, entry.2 ≠ .ns) {n : Node}
    (hshape : n.wellShaped = true) (hmarkers : n.lacks Node.danglesMarker = true) (column : Int) :
    (layout table column (layout table column n).node).node = (layout table column n).node ∧
      (layout table column (layout table column n).node).hoisted = [] := by
  have hsteady : n.lacks Node.misshapen = true → Steady (layout table) column n := by
    intro h
    cases hform : n.isForm with
    | true => exact steady_lay n (regular_of_no_ns htable h) hform hmarkers .plain column
    | false =>
      obtain ⟨kind, text, rfl⟩ := Node.leaf_of_not_form hform
      exact steady_leaf .plain column kind text
  rcases Node.wellShaped_cases hshape with ⟨children, rfl, hchildren⟩ | h
  · have hscript := documentScript_again
      (fun c hc => regular_of_no_ns htable (hchildren c hc)) hmarkers
    obtain ⟨hnode, -⟩ := layout_document table column children
    rw [hnode]
    obtain ⟨hnode', hhoisted'⟩ := layout_document table column
      (documentScript (layout table) (Item.group children)).nodes
    exact ⟨by rw [hnode', hscript], hhoisted'⟩
  · exact ⟨(hsteady h).node, (hsteady h).hoisted⟩

/-- A comment between a key and its value, left of the margin. -/
theorem layout_layout_bindings :
    (∀ entry ∈ [("let", Rule.binding)], entry.2 ≠ .ns) ∧
      let n : Node := .list [.atom "let", .space " ", .vector [.atom "a", .comment ";b",
        .newline "\n", .atom "c"]]
      n.wellShaped = true ∧ n.lacks Node.danglesMarker = true ∧
      let m := (layout [("let", .binding)] (-1) n).node
      (layout [("let", .binding)] (-1) m).node = m ∧
        (layout [("let", .binding)] (-1) m).hoisted = [] :=
  ⟨by decide, rfl, rfl, layout_layout (by decide) rfl rfl (-1)⟩

/-- The children of a document as they come out come out as they are. -/
theorem documentNodes_again {children : List Node} (hfit : ∀ c ∈ children, Fit c)
    (hdangles : (Node.document children).lacks Node.danglesMarker = true) :
    documentNodes (documentNodes children) = documentNodes children :=
  congrArg Script.nodes (documentScript_again (fun c hc => (hfit c hc).regular) hdangles)

end CljTidy.Layout
