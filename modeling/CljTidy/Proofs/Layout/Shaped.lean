/-
  What a layout obeys.

  A law that holds of atoms, of marked and annotated forms if it holds of their parts, and of pages
  if it holds of the elements on them (`FormLaw`) holds of whatever comes out of a form of the shape
  that reading builds, anywhere and under any table (`FormLaw.lay`).  Nothing has to be said about
  namespace declarations, which are pages of their own kind, nor about what goes on a single line:
  without comments a single line is a page that has spaces for gaps (`inline_eq_nodes`).  Laws about
  the leaves of forms are such laws (`LeafLaw.formLaw`), and so is that no part is unknown
  (`isKnown_layout`).
-/
import CljTidy.Proofs.Layout.Declaration

namespace CljTidy.Layout

/-! ## Forms -/

/-- A form as reading builds it. -/
structure ShapedForm (n : Node) : Prop where
  shape : n.lacks Node.misshapen = true
  form : n.isForm = true

namespace ShapedForm

/-- The parts of a collection have the shape that reading builds. -/
theorem branch {b : Bracket} {cs : List Node} (h : ShapedForm (.branch b cs)) :
    b.isCollection = true ∧ ∀ c ∈ cs, c.lacks Node.misshapen = true := by
  obtain ⟨hshape, hcs⟩ := Node.lacks_branch.mp h.shape
  exact ⟨by simpa [Node.misshapen] using hshape, hcs⟩

theorem wrap {m : Mark} {n : Node} (h : ShapedForm (.wrap m n)) : ShapedForm n := by
  obtain ⟨hchild, hn⟩ := Node.lacks_wrap.mp h.shape
  exact ⟨hn, by simpa [Node.misshapen] using hchild⟩

theorem annotated {m t : Node} (h : ShapedForm (.annotated m t)) :
    ShapedForm m ∧ ShapedForm t := by
  obtain ⟨hparts, hm, ht⟩ := Node.lacks_annotated.mp h.shape
  have hforms : m.isForm = true ∧ t.isForm = true := by simpa [Node.misshapen] using hparts
  exact ⟨⟨hm, hforms.1⟩, ht, hforms.2⟩

end ShapedForm

/-! ## Single lines -/

/-- Items behind each other on a line, the first one behind the given gap. -/
def inlineScript : Gap → List Item → Script
  | _, [] => []
  | gap, i :: items => ⟨gap, i⟩ :: inlineScript .space items

@[simp] theorem items_inlineScript (gap : Gap) (items : List Item) :
    (inlineScript gap items).items = items := by
  induction items generalizing gap with
  | nil => rfl
  | cons i items ih => simp [inlineScript, ih]

/-- Items without comments on a line are a script. -/
theorem inline_eq_nodes {items : List Item} (h : ∀ i ∈ items, i.closesLine = false) :
    Item.inline items = (inlineScript .none items).nodes := by
  have hwritten : ∀ i ∈ items, i.written = i.inlineNodes := by
    intro i hi
    have hnone : i.comment = none := by
      have hopen := h i hi
      simp only [Item.closesLine, Bool.or_eq_false_iff] at hopen
      simpa using hopen.2
    simp [Item.written, Item.trailingNodes, hnone]
  clear h
  fun_induction Item.inline items with
  | case1 => rfl
  | case2 i => simp [inlineScript, Placed.nodes, Gap.nodes, hwritten i]
  | case3 i items hne ih =>
    obtain ⟨hi, hrest⟩ := List.forall_mem_cons.mp hwritten
    obtain ⟨j, items, rfl⟩ := List.exists_cons_of_ne_nil hne
    rw [ih hrest]
    simp [inlineScript, Placed.nodes, Gap.nodes, hi]

/-- Items that close no line flow on a single one. -/
theorem flows_inlineScript {low : Int} {items : List Item}
    (h : ∀ i ∈ items, i.closesLine = false) : Flows low none (inlineScript .none items) := by
  -- A space fits between any two items that do not close their lines.
  have hbehind : ∀ (items : List Item) (before : Item), before.closesLine = false →
      (∀ i ∈ items, i.closesLine = false) → Flows low (some before) (inlineScript .space items) := by
    intro items
    induction items with
    | nil => exact fun _ _ _ => trivial
    | cons i items ih =>
      intro before hbefore hitems
      obtain ⟨hi, hrest⟩ := List.forall_mem_cons.mp hitems
      have hcomment : i.isComment = false := (Bool.or_eq_false_iff.mp hi).1
      exact ⟨⟨hbefore, hcomment⟩, ih i hi hrest⟩
  cases items with
  | nil => trivial
  | cons i items =>
    obtain ⟨hi, hrest⟩ := List.forall_mem_cons.mp h
    exact ⟨rfl, hbehind items i hi hrest⟩

theorem closesLine_inlineScript {items : List Item} (h : ∀ i ∈ items, i.closesLine = false) :
    (inlineScript .none items).closesLine = false := by
  unfold Script.closesLine
  cases hlast : (inlineScript .none items).getLast? with
  | none => rfl
  | some p =>
    have hmem : p.item ∈ (inlineScript .none items).items :=
      List.mem_map_of_mem (List.mem_of_getLast? hlast)
    rw [items_inlineScript] at hmem
    exact h p.item hmem

/-- Items without comments on a line, as a page. -/
def inlinePage (items : List Item) : Page := ⟨inlineScript .none items, [], 0⟩

/-- The page of items on a line has their nodes as its children. -/
theorem children_inlinePage {items : List Item} (h : ∀ i ∈ items, i.closesLine = false) :
    (inlinePage items).children = Item.inline items := by
  rw [Page.children, inlinePage, closesLine_inlineScript h, ← inline_eq_nodes h]
  exact List.append_nil _

/-- A collection on a single line is its items on that line, each on a single line itself. -/
theorem flatten_branch {b : Bracket} (hb : b.isCollection = true) (cs : List Node) :
    (Node.branch b cs).flatten =
      .branch b (Item.inline ((Item.group cs).map (Item.onto Node.flatten))) := by
  rw [Node.flatten_collection hb, Node.inward_flatten.group]

/-- Children without comments have items without comments. -/
theorem bare_of_no_comments {cs : List Node} (h : Node.commentTextsAll cs = []) {i : Item}
    (hi : i ∈ Item.group cs) : i.closesLine = false ∧ i.element.commentTexts = [] := by
  have hall := Item.allComments_group cs
  rw [h, List.perm_nil] at hall
  obtain ⟨helement, hown⟩ := List.append_eq_nil_iff.mp (List.flatMap_eq_nil_iff.mp hall i hi)
  refine ⟨?_, helement⟩
  cases hcomment : i.isComment with
  | true =>
    obtain ⟨text, htext⟩ := Node.eq_comment hcomment
    rw [htext] at helement
    cases helement
  | false =>
    rw [if_neg (Bool.eq_false_iff.mp hcomment)] at hown
    simpa [Item.closesLine, hcomment] using hown

/-- Nor do the items on a single line close it. -/
theorem flattened_of_no_comments {cs : List Node} (h : Node.commentTextsAll cs = []) :
    ∀ j ∈ (Item.group cs).map (Item.onto Node.flatten), j.closesLine = false := by
  intro j hj
  obtain ⟨i, hi, rfl⟩ := List.mem_map.mp hj
  have hsame := Node.inward_flatten.isComment_onto i
  rw [Item.closesLine, hsame]
  exact (bare_of_no_comments h hi).1

/-! ## Laws of forms -/

/-- A law that goes from the parts of a form to the form. -/
structure FormLaw (P : Node → Prop) : Prop where
  atom : ∀ text, P (.atom text)
  wrap : ∀ m n, P n → P (.wrap m n)
  annotated : ∀ m t, P m → P t → P (.annotated m t)
  page : ∀ (low : Int) (b : Bracket) (page : Page), b.isCollection = true →
    Flows low none page.script → (∀ i ∈ page.script.items, i.Made P fun _ => True) →
    P (.branch b page.children)

/-- Elements come out as shaped forms do where they are placed. -/
theorem made_placed {P : Node → Prop} {r : Nat} {items out : List Item}
    {leaving : List String} (hrank : ∀ i ∈ items, rank i.element ≤ r)
    (hmade : ∀ i ∈ items, i.Made (fun n => n.lacks Node.misshapen = true) fun _ => True)
    (haccount : Account (Right ShapedForm (fun rendered _ => P rendered.node) r) items out
      leaving) :
    ∀ i ∈ out, i.Made P fun _ => True := by
  obtain ⟨ps, h⟩ := haccount
  refine h.made hmade (fun p hp form shape => ?_) fun _ _ => trivial
  obtain ⟨i, hi, -, hcore⟩ := h.placed hp
  injection hcore with helement _
  have hdepth := hrank i hi
  rw [helement] at hdepth
  exact (h.sites p hp).2 p.element hdepth ⟨shape, form⟩

namespace FormLaw

variable {P : Node → Prop} (law : FormLaw P)

include law

/-- What goes on a single line obeys the law. -/
theorem flatten (n : Node) : ShapedForm n → n.commentTexts = [] → P n.flatten := by
  refine item_induction
    (P := fun n => ShapedForm n → n.commentTexts = [] → P n.flatten) ?_ ?_ ?_ ?_ ?_ n
  · intro kind text hshaped _
    cases kind with
    | atom => exact law.atom text
    | _ => cases hshaped.form
  · -- On its line a collection is a page of what its elements are on theirs.
    intro b cs ih hshaped hcomments
    obtain ⟨hb, hcs⟩ := hshaped.branch
    rw [Node.commentTexts_branch] at hcomments
    have hbare := flattened_of_no_comments hcomments
    have hmade : ∀ j ∈ (Item.group cs).map (Item.onto Node.flatten), j.Made P fun _ => True := by
      intro j hj
      obtain ⟨i, hi, rfl⟩ := List.mem_map.mp hj
      obtain ⟨hopen, hnone⟩ := bare_of_no_comments hcomments hi
      have hitem := made_of_shape hcs i hi
      have hih := ih i hi
      cases hitem with
      | comment => cases hopen
      | element form made marked trailing =>
        exact .element ((Node.inward_flatten.isForm _).trans form) (hih ⟨made, form⟩ hnone) marked
          fun _ _ => trivial
    have hpage := law.page 0 b (inlinePage ((Item.group cs).map (Item.onto Node.flatten))) hb
      (flows_inlineScript hbare) (by rw [inlinePage, items_inlineScript]; exact hmade)
    rw [children_inlinePage hbare] at hpage
    rw [flatten_branch hb]
    exact hpage
  · intro m n ih hshaped hcomments
    exact law.wrap _ _ (ih hshaped.wrap hcomments)
  · intro m t ihm iht hshaped hcomments
    obtain ⟨hm, ht⟩ := hshaped.annotated
    rw [Node.commentTexts_annotated, List.append_eq_nil_iff] at hcomments
    exact law.annotated _ _ (ihm hm hcomments.1) (iht ht hcomments.2)
  · intro hshaped
    cases hshaped.shape

/-- **Pages obey the law** if what is placed on them does. -/
theorem pageLaw : PageLaw ShapedForm fun rendered _ => P rendered.node where
  page := by
    intro r low b children items page rendered hshaped harranged hrank hshows hlaid
    obtain ⟨hb, hchildren⟩ := hshaped.branch
    have hmade := harranged.made foreign_misshapen hchildren
    have hitems := made_placed hrank
      (fun i hi => (hmade i hi).imp (fun _ hn => hn) fun _ _ => trivial) hlaid.account
    rw [hshows.node]
    exact law.page low b page hb hlaid.flows hitems
  single := by
    intro n hshaped hcomment
    exact law.flatten n hshaped (Node.commentTexts_eq_nil.mpr hcomment)

variable {table : Table}

/-- **Forms obey the law** when they are laid out, anywhere and under any table. -/
theorem lay (n : Node) : ShapedForm n → ∀ (place : Place) (column : Int),
    P (place.lay (layout table) column n).node := by
  refine rank_induction (P := fun n => ShapedForm n → ∀ (place : Place) (column : Int),
    P (place.lay (layout table) column n).node) ?_ ?_ ?_ ?_ ?_ n
  · intro kind text hshaped place column
    rw [lay_leaf]
    cases kind with
    | atom => exact law.atom text
    | _ => cases hshaped.form
  · intro b cs ih hshaped
    exact law.pageLaw.collection hshaped.branch.1 hshaped ih
  · intro m n ih hshaped place column
    rw [lay_wrap]
    exact law.wrap _ _ (ih hshaped.wrap (Mark.place m) (column + m.width))
  · intro m t ihm iht hshaped place column
    obtain ⟨hm, ht⟩ := hshaped.annotated
    rw [lay_annotated]
    exact law.annotated _ _ (ihm hm .plain _) (iht ht .plain _)
  · intro hshaped
    cases hshaped.shape

/-- The items of a document come out with elements that obey the law. -/
theorem document {children : List Node} (h : ∀ c ∈ children, c.lacks Node.misshapen = true) :
    ∀ i ∈ (documentScript (layout table) (Item.group children)).items, i.Made P fun _ => True := by
  have hlay : Serves (Right ShapedForm (fun rendered _ => P rendered.node) (rankAll children))
      0 (layout table) :=
    ⟨faithful_layout table .plain, fun c _ n _ hshaped => law.lay n hshaped .plain c⟩
  exact made_placed (fun i hi => rank_element hi) (made_of_shape h)
    (Account.document hlay (Int.le_refl 0) (Item.group children))

end FormLaw

/-! ## Laws of leaves -/

/-- A law about the leaves of forms that goes from the parts of a form to the form. -/
structure LeafLaw (P : List Leaf → Prop) : Prop where
  atom : ∀ text, P [.node .atom text]
  sign : ∀ text leaves, P leaves → P (.sign text :: leaves)
  join : ∀ text before behind, P before → P behind → P (before ++ .sign text :: behind)
  page : ∀ (low : Int) (b : Bracket) (page : Page), b.isCollection = true →
    Flows low none page.script →
    (∀ i ∈ page.script.items, i.Made (fun n => P n.leaves) fun _ => True) →
    P (b.enclose (Node.leavesAll page.children))

/-- A law about leaves is a law about forms: a page and its brackets have the leaves of what is
    placed on it. -/
theorem LeafLaw.formLaw {P : List Leaf → Prop} (law : LeafLaw P) :
    FormLaw fun n => P n.leaves where
  atom := law.atom
  wrap m _ h := law.sign m.spelling _ h
  annotated _ _ hm ht := law.sign _ _ (law.join _ _ _ hm ht)
  page := law.page

/-! ## Known forms -/

/-- What holds of leaves and of the elements on a page holds of its children. -/
theorem forall_children {P : Node → Prop} (hleaf : ∀ kind text, P (.leaf kind text)) {page : Page}
    {Q : String → Prop} (h : ∀ i ∈ page.script.items, i.Made P Q) : ∀ c ∈ page.children, P c := by
  -- Gaps, markers and trailing comments are leaves.
  have hgap : ∀ (g : Gap), ∀ c ∈ g.nodes, P c := by
    intro g c hc
    obtain ⟨kind, text, rfl⟩ := Node.leaf_of_noise (noise_gap g c hc)
    exact hleaf kind text
  have hwritten : ∀ i : Item, P i.element → ∀ c ∈ i.written, P c := by
    intro i helement c hc
    simp only [Item.written, Item.inlineNodes, List.mem_append, List.mem_singleton] at hc
    rcases hc with (hc | rfl) | hc
    · split at hc
      · simp only [List.mem_cons, List.not_mem_nil, or_false] at hc
        rcases hc with rfl | rfl <;> exact hleaf ..
      · cases hc
    · exact helement
    · unfold Item.trailingNodes at hc
      split at hc
      · simp only [List.mem_cons, List.not_mem_nil, or_false] at hc
        rcases hc with rfl | rfl <;> exact hleaf ..
      · cases hc
  have helement : ∀ i ∈ page.script.items, P i.element := by
    intro i hi
    cases h i hi with
    | comment => exact hleaf ..
    | element form made => exact made
  intro c hc
  rcases List.mem_append.mp hc with hc | hc
  · obtain ⟨p, hp, hc⟩ := List.mem_flatMap.mp hc
    rcases List.mem_append.mp hc with hc | hc
    · exact hgap _ c hc
    · exact hwritten p.item (helement p.item (List.mem_map_of_mem hp)) c hc
  · split at hc
    · exact hgap _ c hc
    · cases hc

/-- That no part is unknown is a law of forms. -/
theorem formLaw_known : FormLaw fun n => n.isKnown = true where
  atom _ := rfl
  wrap _ _ h := h
  annotated _ _ hm ht := by rw [Node.isKnown, hm, ht]; rfl
  page _ b page _ _ hitems := by
    rw [Node.isKnown, Node.allKnown_eq, List.all_eq_true]
    exact forall_children (fun _ _ => rfl) hitems

/-- **What is laid out can be written.** -/
theorem isKnown_layout {n : Node} (hshape : n.lacks Node.misshapen = true) (table : Table)
    (column : Int) : (layout table column n).node.isKnown = true := by
  cases hform : n.isForm with
  | true => exact formLaw_known.lay n ⟨hshape, hform⟩ .plain column
  | false =>
    obtain ⟨kind, text, rfl⟩ := Node.leaf_of_not_form hform
    have hleaf : layout table column (.leaf kind text) = { node := tidyLeaf kind text } :=
      lay_leaf .plain column kind text
    rw [hleaf]
    cases kind <;> rfl

end CljTidy.Layout
