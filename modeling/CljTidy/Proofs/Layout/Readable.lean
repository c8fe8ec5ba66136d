/-
  Trees that come out can be read back.

  By induction over a tree, through the items of its collections: laid out anywhere, a sound form
  comes out as a sound form that stands, and what leaves it are comments (`readable_lay`).  A
  collection has a plan unless it is a namespace declaration; its page flows and accounts for its
  items, so its items are neat if the elements are readable.  A whole document is then read back
  from its text (`parse_document`).
-/
import CljTidy.Proofs.Layout.Clean
import CljTidy.Proofs.Layout.Shape
import CljTidy.Proofs.Reading.Reread

namespace CljTidy.Layout

/-! ## What comes out -/

/-- The text is a comment once it is tidy. -/
def TidyComment (text : String) : Prop := Comment.IsComment (Comment.tidy text).toList

/-- What comes out of a form: a sound form that stands, and comments that leave. -/
structure Readable (r : Rendered) : Prop where
  sound : r.node.Sound
  stands : r.node.Stands
  hoisted : ∀ text ∈ r.hoisted, TidyComment text

/-- Comments on both sides of an account are comments in their tidy form. -/
theorem tidyComments_of_accounts {site : Lay → Int → Prop} {ps : List Placing}
    {items out : List Item} {leaving : List String} (h : Accounts site ps items out leaving)
    (hitems : ∀ text ∈ Item.comments items, TidyComment text)
    (hps : ∀ p ∈ ps, ∀ text ∈ p.rendered.hoisted, TidyComment text) :
    (∀ text ∈ Item.comments out, Comment.IsComment text.toList) ∧
      ∀ text ∈ leaving, TidyComment text := by
  have hall : ∀ text ∈ Item.comments out ++ leaving.map Comment.tidy,
      Comment.IsComment text.toList := by
    intro text htext
    rw [h.comments.mem_iff, List.mem_map] at htext
    obtain ⟨raw, hraw, rfl⟩ := htext
    rcases List.mem_append.mp hraw with hraw | hraw
    · exact hitems raw hraw
    · obtain ⟨p, hp, hmem⟩ := List.mem_flatMap.mp hraw
      exact hps p hp raw hmem
  exact ⟨fun text htext => hall text (List.mem_append_left _ htext),
    fun text htext => hall _ (List.mem_append_right _ (List.mem_map_of_mem htext))⟩

/-! ## Trees -/

/-- The node is as reading builds it, without namespace declarations and unquoted dereferences. -/
structure Fit (n : Node) : Prop where
  sound : n.Sound
  noNamespace : n.lacks Node.declaresNamespace = true
  noDeref : n.lacks Node.unquotesDeref = true

/-- A discard over a sound form is sound. -/
theorem sound_discard {n : Node} (hform : n.isForm = true) (h : n.Sound) :
    (Node.discard n).Sound :=
  .wrap rfl ⟨'#', ['_'], rfl, fun _ _ => rfl⟩ rfl hform h

theorem Sound.of_discard {n : Node} (h : (Node.discard n).Sound) :
    n.isForm = true ∧ n.Sound := by
  cases h with
  | fused hm => cases hm
  | wrap _ _ _ form child => exact ⟨form, child⟩

/-- So a discard over a fit form is fit. -/
theorem Fit.discard {n : Node} (hform : n.isForm = true) (h : Fit n) : Fit (.discard n) :=
  ⟨sound_discard hform h.sound, Node.lacks_wrap.mpr ⟨rfl, h.noNamespace⟩,
    Node.lacks_wrap.mpr ⟨rfl, h.noDeref⟩⟩

theorem Fit.of_discard {n : Node} (h : Fit (.discard n)) : n.isForm = true ∧ Fit n := by
  obtain ⟨hform, hsound⟩ := Sound.of_discard h.sound
  exact ⟨hform, hsound, (Node.lacks_wrap.mp h.noNamespace).2, (Node.lacks_wrap.mp h.noDeref).2⟩

/-- A comment in a sound tree is spelled as comments are. -/
theorem isComment_of_sound {text : String} (h : (Node.comment text).Sound) :
    Comment.IsComment text.toList := by
  cases h with
  | leaf whole => exact whole.regular

/-- The items of fit children are made of fit forms and comments. -/
theorem made_of_fit {children : List Node} (h : ∀ c ∈ children, Fit c) :
    ∀ i ∈ Item.group children, i.Made Fit fun text => Comment.IsComment text.toList :=
  made_group (fun _ hform hn => hn.discard hform) (fun _ hn => hn.of_discard)
    (fun c hc _ => h c hc) (fun _ hc => isComment_of_sound (h _ hc).sound)

theorem Fit.regular {n : Node} (h : Fit n) : Regular .standard n :=
  ⟨shape_of_sound h.sound, Node.lacks_mono (fun _ => declares_standard) h.noNamespace⟩

section

variable {P : Node → Prop} (atom : ∀ text, (Node.atom text).Sound → P (.atom text))
  (branch : ∀ b cs, b.isCollection = true → (∀ c ∈ cs, Fit c) →
    (Node.branch b cs).declaresNamespace = false →
    (∀ i ∈ Item.group cs, i.isComment = false → P i.element) → P (.branch b cs))
  (fused : ∀ m cs, m.fuses = true → P (.list cs) → P (.wrap m (.list cs)))
  (wrap : ∀ m n, m.fuses = false → m.piece.Whole → Reading.accepts m n = true → n.isForm = true →
    (m = .unquote → ∀ x, n ≠ .wrap .deref x) → P n → P (.wrap m n))
  (annotated : ∀ m t, m.isForm = true → t.isForm = true → P m → P t → P (.annotated m t))

include atom branch fused wrap annotated

/-- Induction over fit forms that goes from a collection to the elements of its items. -/
theorem fit_induction (n : Node) (hfit : Fit n) (hform : n.isForm = true) : P n := by
  revert hfit hform
  refine item_induction (P := fun n => Fit n → n.isForm = true → P n) ?_ ?_ ?_ ?_ ?_ n
  · intro kind text hfit hform
    cases kind with
    | atom => exact atom text hfit.sound
    | _ => cases hform
  · -- The parts of a fit form are fit, and so are the elements of the items of a collection.
    intro b cs ih hfit hform
    have hlacks := Node.lacks_branch.mp hfit.noNamespace
    have hderef := Node.lacks_branch.mp hfit.noDeref
    cases hfit.sound with
    | branch hb children =>
      have hcs : ∀ c ∈ cs, Fit c := fun c hc => ⟨children c hc, hlacks.2 c hc, hderef.2 c hc⟩
      refine branch b cs hb hcs hlacks.1 fun i hi hnot => ?_
      cases made_of_fit hcs i hi with
      | comment => cases hnot
      | element form made marked trailing => exact ih _ hi made form
  · intro m n ih hfit hform
    have hlacks := Node.lacks_wrap.mp hfit.noNamespace
    have hderef := Node.lacks_wrap.mp hfit.noDeref
    cases hfit.sound with
    -- The list of a mark that fuses is a collection like others.
    | fused hm children => exact fused m _ hm (ih ⟨.branch rfl children, hlacks.2, hderef.2⟩ rfl)
    | wrap hm mark haccepts form child =>
      refine wrap m n hm mark haccepts form (fun hunquote x hx => ?_)
        (ih ⟨child, hlacks.2, hderef.2⟩ form)
      subst hunquote hx
      cases hderef.1
  · intro m t ihm iht hfit hform
    have hlacks := Node.lacks_annotated.mp hfit.noNamespace
    have hderef := Node.lacks_annotated.mp hfit.noDeref
    cases hfit.sound with
    | annotated formData formTarget metadata target =>
      exact annotated m t formData formTarget
        (ihm ⟨metadata, hlacks.2.1, hderef.2.1⟩ formData)
        (iht ⟨target, hlacks.2.2, hderef.2.2⟩ formTarget)
  · intro hfit
    cases hfit.sound

end

/-- What is known of the items of a page, from the items that went into it. -/
theorem clean_page {P : Node → Prop} {site : Lay → Int → Prop} {items : List Item}
    (hmade : ∀ i ∈ items, i.Made P fun text => Comment.IsComment text.toList)
    (hread : ∀ l c, site l c → ∀ i ∈ items, i.isComment = false → Readable (l c i.element))
    {out : List Item} {leaving : List String} (haccount : Account site items out leaving) :
    (∀ i ∈ out, i.Neat) ∧ ∀ text ∈ leaving, TidyComment text := by
  obtain ⟨ps, h⟩ := haccount
  have hreadable : ∀ p ∈ ps, Readable p.rendered := by
    intro p hp
    obtain ⟨i, hi, hnot, hcore⟩ := h.placed hp
    injection hcore with helement _
    have hplaced := hread p.lay p.column (h.sites p hp).2 i hi hnot
    rw [helement] at hplaced
    exact hplaced
  have hitems : ∀ text ∈ Item.comments items, TidyComment text := by
    intro text htext
    obtain ⟨i, hi, hmem⟩ := List.mem_flatMap.mp htext
    exact Comment.isComment_tidy ((hmade i hi).texts text hmem)
  obtain ⟨hout, hleaving⟩ := tidyComments_of_accounts h hitems fun p hp => (hreadable p hp).hoisted
  exact ⟨h.made hmade (fun p hp _ _ => ⟨(hreadable p hp).sound, (hreadable p hp).stands⟩) hout,
    hleaving⟩

/-- A clean page is readable. -/
theorem Page.Clean.readable {p : Page} (h : p.Clean)
    (hleaving : ∀ text ∈ p.leaving, TidyComment text) {b : Bracket} (hb : b.isCollection = true)
    {r : Rendered} (hshows : r.Shows b p) : Readable r := by
  refine ⟨?_, ?_, ?_⟩
  · rw [hshows.node]
    exact .branch hb h.sound
  · rw [hshows.node]
    exact Node.stands_branch hb fun rest _ => h.stands hb rest
  · rw [hshows.hoisted]
    exact hleaving

/-- A collection is readable if the elements of its items are, wherever they are placed. -/
theorem readable_branch {b : Bracket} {children : List Node} (hb : b.isCollection = true)
    (hfit : ∀ c ∈ children, Fit c) (hns : (Node.branch b children).declaresNamespace = false)
    (ih : ∀ i ∈ Item.group children, i.isComment = false → ∀ (place : Place) (c : Int), 0 ≤ c →
      Readable (place.lay (layout .standard) c i.element))
    (place : Place) {column : Int} (hc : 0 ≤ column) :
    Readable (place.lay (layout .standard) column (.branch b children)) := by
  obtain ⟨plan, hplan⟩ := exists_plan (declares_standard hns) place
  have hindents := indents_plan hplan
  have hlay := faithful_layout .standard
  obtain ⟨hflows, hmargin⟩ := flows_page hlay hindents (Int.le_refl 0) hc b (Item.group children)
  obtain ⟨hneat, hleaving⟩ := clean_page (made_of_fit hfit)
    (by
      rintro l c ⟨hc, place, rfl⟩ i hi hnot
      exact ih i hi hnot place c hc)
    (account_page (serves_somewhere hlay 0) hindents (Int.le_refl 0) hc b (Item.group children))
  have hclean : Page.Clean (plan.page (layout .standard) column b (Item.group children)) :=
    ⟨hflows, hneat, hmargin⟩
  exact hclean.readable hleaving hb (shows_layout hb hplan column)

/-- What looks like a list is one. -/
theorem list_of_face {n : Node} {cs : List Node} (h : n.face = (Node.list cs).face) :
    ∃ ds, n = .list ds := by
  have hlist : n.isList = true := by
    rw [← Node.isList_face, h]
    rfl
  exact Node.eq_list hlist

/-- A mark that is one token with the bracket of its list. -/
theorem readable_fused {m : Mark} (hm : m.fuses = true) {r : Rendered} (h : Readable r)
    {cs : List Node} (hface : r.node.face = (Node.list cs).face) :
    Readable { r with node := .wrap m r.node } := by
  obtain ⟨node, hoisted, notes⟩ := r
  obtain ⟨ds, rfl⟩ := list_of_face hface
  refine ⟨?_, Node.stands_fused hm h.stands, h.hoisted⟩
  cases h.sound with
  | branch _ children => exact .fused hm children

/-- A mark that is a token of its own. -/
theorem readable_wrap {m : Mark} {n : Node} (hm : m.fuses = false) (hwhole : m.piece.Whole)
    (haccepts : Reading.accepts m n = true) (hform : n.isForm = true) {r : Rendered}
    (h : Readable r) (hface : r.node.face = n.face)
    (hderef : m = .unquote → ∀ x, n ≠ .wrap .deref x) :
    Readable { r with node := .wrap m r.node } := by
  have hsound : (Node.wrap m r.node).Sound := by
    refine .wrap hm hwhole ?_ ((Node.isForm_of_face hface).trans hform) h.sound
    cases m with
    | namespaced ns =>
      show r.node.isMap = true
      rw [← Node.isMap_face, hface, Node.isMap_face]
      exact haccepts
    | _ => rfl
  refine ⟨hsound, Node.stands_wrap hsound hm h.stands fun hunquote x hx => ?_, h.hoisted⟩
  rw [hx] at hface
  obtain ⟨y, rfl⟩ := Node.deref_of_face hface.symm
  exact hderef hunquote y rfl

/-- The target of metadata starts right of the margin. -/
theorem target_nonneg {column : Int} (h : 0 ≤ column) (text : String) :
    0 ≤ endColumn (column + 1) text + 1 := by
  have hone : 0 ≤ column + 1 := by omega
  have := le_endColumn (Int.le_refl 0) hone text
  omega

/-- Metadata and target are readable together; a space keeps them apart. -/
theorem readable_annotated {m t : Node} (hm : m.isForm = true) (ht : t.isForm = true)
    {r s : Rendered} (hr : Readable r) (hs : Readable s) (hface : r.node.face = m.face)
    (hface' : s.node.face = t.face) :
    Readable ⟨.annotated r.node s.node, r.hoisted ++ s.hoisted, r.notes ++ s.notes⟩ := by
  have hsound : (Node.annotated r.node s.node).Sound :=
    .annotated ((Node.isForm_of_face hface).trans hm) ((Node.isForm_of_face hface').trans ht)
      hr.sound hs.sound
  refine ⟨hsound, Node.stands_annotated hsound hr.stands hs.stands, fun text htext => ?_⟩
  rcases List.mem_append.mp htext with htext | htext
  · exact hr.hoisted text htext
  · exact hs.hoisted text htext

/-- **Readable.**  A fit form comes out as a sound form that stands. -/
theorem readable_lay (n : Node) (hfit : Fit n) (hform : n.isForm = true) :
    ∀ (place : Place) (column : Int), 0 ≤ column →
      Readable (place.lay (layout .standard) column n) := by
  refine fit_induction (P := fun n => ∀ (place : Place) (column : Int), 0 ≤ column →
    Readable (place.lay (layout .standard) column n)) ?_ ?_ ?_ ?_ ?_ n hfit hform
  · intro text hsound place column _
    rw [lay_leaf]
    exact ⟨hsound, Node.stands_atom hsound, by simp⟩
  · intro b cs hb hcs hns ih place column hc
    exact readable_branch hb hcs hns ih place hc
  · intro m cs hm ih place column hc
    rw [lay_wrap]
    exact readable_fused hm (ih (Mark.place m) (column + m.width) (by omega))
      (face_lay .standard (Mark.place m) _ (.list cs))
  · intro m n hm hwhole haccepts hform hderef ih place column hc
    rw [lay_wrap]
    exact readable_wrap hm hwhole haccepts hform (ih (Mark.place m) (column + m.width) (by omega))
      (face_lay .standard (Mark.place m) _ n) hderef
  · intro m t hm ht ihm iht place column hc
    rw [lay_annotated]
    exact readable_annotated hm ht (ihm .plain (column + 1) (by omega))
      (iht .plain _ (target_nonneg hc _)) (face_lay .standard .plain _ m)
      (face_lay .standard .plain _ t)

/-! ## Documents -/

/-- The children of a document as they come out. -/
def documentNodes (children : List Node) : List Node :=
  (documentScript (layout .standard) (Item.group children)).nodes

/-- A document is rendered as the nodes it comes out with. -/
theorem render_document (children : List Node) :
    render .standard 0 (.document children) = .document (documentNodes children) := by
  obtain ⟨hnode, hhoisted⟩ := layout_document .standard 0 children
  simp only [render, Rendered.settle, hhoisted, hnode]
  rfl

/-- Laid out right of the margin, the node can be read. -/
def Legible (n : Node) : Prop :=
  ∀ column, 0 ≤ column → Readable (layout .standard column n)

/-- The items of fit children are made of legible forms and comments. -/
theorem legible_of_fit {children : List Node} (h : ∀ c ∈ children, Fit c) :
    ∀ i ∈ Item.group children, i.Made Legible fun text => Comment.IsComment text.toList := by
  intro i hi
  cases made_of_fit h i hi with
  | comment comment => exact .comment comment
  | element form made marked trailing =>
    exact .element form (fun c hc => readable_lay _ made form .plain c hc) marked trailing

section

variable {children : List Node}
  (h : ∀ i ∈ Item.group children, i.Made Legible fun text => Comment.IsComment text.toList)

include h

/-- The items of a document as they come out. -/
theorem neat_document :
    ∀ i ∈ (documentScript (layout .standard) (Item.group children)).items, i.Neat := by
  have hlay : Serves (fun l c => l = layout .standard ∧ 0 ≤ c) 0 (layout .standard) :=
    ⟨faithful_layout .standard .plain, fun c hc => ⟨rfl, hc⟩⟩
  refine (clean_page h ?_ (Account.document hlay (Int.le_refl 0) (Item.group children))).1
  rintro l c ⟨rfl, hc⟩ i hi hnot
  cases h i hi with
  | comment => cases hnot
  | element form made => exact made c hc

/-- What comes out of legible children is sound, and its tokens leave each other alone. -/
theorem cuts_document :
    (∀ n ∈ documentNodes children, n.Sound) ∧
      Piece.Cuts [] (Node.piecesAll (documentNodes children)) := by
  have hfirst : Gap.none.Opens 0 none := rfl
  have hflows : Flows 0 none (documentScript (layout .standard) (Item.group children)) :=
    flows_spread (Int.le_refl 0) hfirst _
  have hneat := neat_document h
  refine ⟨sound_script hflows hneat, cuts_script hflows hneat ?_ ?_⟩
  · rintro c ⟨⟩
  · rintro _ _ _ c ⟨⟩

/-- **Documents are read back.**  What comes out of legible children is read back from its text. -/
theorem parse_document :
    parse (Node.textAll (documentNodes children)) = .ok (documentNodes children) :=
  parse_pieces (cuts_document h).1 (cuts_document h).2

end

end CljTidy.Layout
