/-
  Forms on a single line.

  A form without comments has the same single line before and behind layout (`flatten_lay`): the
  items of its page are the items of its children, in their order, and no comment comes between
  them.  What is on a single line stays on it (`flatten_flatten`) and can be read
  (`readable_flatten`).
-/
import CljTidy.Proofs.Layout.Comments
import CljTidy.Proofs.Layout.Shaped
import CljTidy.Proofs.Layout.Steady

namespace CljTidy

namespace Item

/-- Items close no line exactly if they have no comments. -/
theorem comments_eq_nil {items : List Item} :
    comments items = [] ↔ ∀ i ∈ items, i.closesLine = false := by
  rw [comments, List.flatMap_eq_nil_iff]
  refine forall₂_congr fun i _ => ?_
  cases hi : i.isComment with
  | true => simp [commentTexts, closesLine, hi]
  | false => simp [commentTexts, closesLine, hi]

/-- Items that close no line are their elements and markers. -/
theorem map_onto_of_open {items : List Item} (h : ∀ i ∈ items, i.closesLine = false)
    (f : Node → Node) :
    items.map (onto f) = (cores items).map fun c => ⟨f c.1, c.2, none⟩ := by
  induction items with
  | nil => rfl
  | cons i items ih =>
    obtain ⟨hi, hrest⟩ := List.forall_mem_cons.mp h
    obtain ⟨hcomment, hnone⟩ := Bool.or_eq_false_iff.mp hi
    obtain ⟨element, marker, _ | text⟩ := i
    · rw [cores_cons_element hcomment, List.map_cons, List.map_cons, ih hrest]
      rfl
    · cases hnone

end Item

namespace Layout

variable {table : Table}

/-! ## Nodes without comments -/

/-- Without comments no `&` has one next. -/
theorem markerDangles_of_no_comments {cs : List Node} (h : Node.commentTextsAll cs = []) :
    Node.markerDangles cs = false := by
  induction cs with
  | nil => rfl
  | cons c cs ih =>
    rw [Node.commentTextsAll_cons, List.append_eq_nil_iff] at h
    have hnext : (cs.dropWhile Node.isNoise).head?.any Node.isComment = false := by
      cases hhead : (cs.dropWhile Node.isNoise).head? with
      | none => rfl
      | some d =>
        have hmem : d ∈ cs := (List.dropWhile_sublist _).subset (List.mem_of_head? hhead)
        have hd : d.commentTexts = [] := List.flatMap_eq_nil_iff.mp h.2 d hmem
        refine Bool.eq_false_iff.mpr fun hcomment => ?_
        obtain ⟨text, rfl⟩ := Node.eq_comment hcomment
        cases hd
    rw [Node.markerDangles, hnext, Bool.and_false, Bool.false_or]
    exact ih h.2

/-- No comment leaves a node that has none. -/
theorem hoisted_of_no_comments {n : Node} (h : n.commentTexts = []) (place : Place) (column : Int) :
    (place.lay (layout table) column n).hoisted = [] := by
  have hkeeps : Retains (place.lay (layout table) column n) n := retains_lay n place column
  unfold Retains KeepsComments at hkeeps
  rw [h, List.map_nil, List.perm_nil, List.append_eq_nil_iff] at hkeeps
  exact List.map_eq_nil_iff.mp hkeeps.2

/-! ## Before and behind layout -/

/-- The items of a page without comments are on a single line as the items it is made of, if the
    elements are. -/
theorem flattened_page {site : Lay → Int → Prop} {items out : List Item} {leaving : List String}
    (haccount : Account site items out leaving) (hopen : ∀ i ∈ items, i.closesLine = false)
    (h : ∀ l c, site l c → ∀ i ∈ items, i.isComment = false →
      (l c i.element).node.flatten = i.element.flatten ∧ (l c i.element).hoisted = []) :
    out.map (Item.onto Node.flatten) = items.map (Item.onto Node.flatten) := by
  obtain ⟨ps, hps⟩ := haccount
  have hplaced : ∀ p ∈ ps,
      p.rendered.node.flatten = p.element.flatten ∧ p.rendered.hoisted = [] := by
    intro p hp
    obtain ⟨i, hi, hnot, hcore⟩ := hps.placed hp
    injection hcore with helement _
    have hsite := h p.lay p.column (hps.sites p hp).2 i hi hnot
    rw [helement] at hsite
    exact hsite
  have hhoisted : (ps.flatMap fun p => p.rendered.hoisted) = [] :=
    List.flatMap_eq_nil_iff.mpr fun p hp => (hplaced p hp).2
  have hcomments := hps.comments
  rw [Item.comments_eq_nil.mpr hopen, hhoisted, List.nil_append, List.map_nil, List.perm_nil,
    List.append_eq_nil_iff] at hcomments
  rw [Item.map_onto_of_open (Item.comments_eq_nil.mp hcomments.1), Item.map_onto_of_open hopen,
    hps.input, hps.output, List.map_map, List.map_map]
  refine List.map_congr_left fun p hp => ?_
  simp only [Function.comp_apply, (hplaced p hp).1]

/-- **Single lines outlast layout.**  A regular form without comments has the same single line
    wherever it is laid out. -/
theorem flatten_lay (n : Node) (hregular : Regular table n) (hform : n.isForm = true)
    (hnone : n.commentTexts = []) :
    ∀ (place : Place) (column : Int),
      (place.lay (layout table) column n).node.flatten = n.flatten := by
  revert hnone
  refine regular_induction (P := fun n => n.commentTexts = [] → ∀ (place : Place) (column : Int),
    (place.lay (layout table) column n).node.flatten = n.flatten) ?_ ?_ ?_ ?_ n hregular hform
  · intro text _ place column
    rw [lay_leaf]
    rfl
  · -- The page has the items of the children again, each with an element on the same single line.
    intro b cs hb hcs hdeclares ih hnone place column
    rw [Node.commentTexts_branch] at hnone
    obtain ⟨plan, hplan⟩ := exists_plan hdeclares place
    obtain ⟨low, hlow, hc⟩ := exists_low column
    have hlay := faithful_layout table
    obtain ⟨hnode, -⟩ := shows_layout hb hplan column
    obtain ⟨hflows, -⟩ := flows_page hlay (indents_plan hplan) hlow hc b (Item.group cs)
    have haccount := account_page (serves_somewhere hlay low) (indents_plan hplan) hlow hc b
      (Item.group cs)
    have hitems := flattened_page haccount (fun i hi => (bare_of_no_comments hnone hi).1)
      (by
        rintro l c ⟨-, place, rfl⟩ i hi hnot
        have hi' := (bare_of_no_comments hnone hi).2
        exact ⟨ih i hi hnot hi' place c, hoisted_of_no_comments hi' place c⟩)
    rw [hnode, flatten_branch hb, flatten_branch hb,
      group_page (made_of_regular hcs) (markerDangles_of_no_comments hnone) hflows haccount, hitems]
  · -- Marks and metadata pass it on.
    intro m n _ ih hnone place column
    rw [lay_wrap]
    simp only [Node.flatten, ih hnone]
  · intro m t _ _ ihm iht hnone place column
    rw [Node.commentTexts_annotated, List.append_eq_nil_iff] at hnone
    have hm : ∀ c, (layout table c m).node.flatten = m.flatten := ihm hnone.1 .plain
    have ht : ∀ c, (layout table c t).node.flatten = t.flatten := iht hnone.2 .plain
    rw [lay_annotated]
    simp only [Node.flatten, hm, ht]

/-! ## On the line -/

/-- What puts everything on a single line. -/
def onLine : Lay := fun _ n => { node := n.flatten }

theorem keepsFace_onLine : KeepsFace onLine := fun _ n => n.face_flatten

theorem account_inline {items : List Item} (h : ∀ i ∈ items, i.closesLine = false) :
    Account (fun _ _ => True) items (items.map (Item.onto Node.flatten)) [] := by
  have hsettled : ∀ i ∈ items, settled onLine 0 i = [i.onto Node.flatten] := by
    intro i hi
    obtain ⟨hcomment, hnone⟩ := Bool.or_eq_false_iff.mp (h i hi)
    obtain ⟨element, marker, _ | text⟩ := i
    · simp [settled, settle, leaving, hcomment, onLine, Item.onto]
    · cases hnone
  have haccount := Account.settledAll (serves_anywhere keepsFace_onLine 0) (Int.le_refl 0) items
  rw [List.map_eq_flatMap]
  have hall : items.flatMap (settled onLine 0) = items.flatMap fun i => [i.onto Node.flatten] :=
    congrArg List.flatten (List.map_congr_left hsettled)
  rwa [hall] at haccount

/-- The items on a single line are found again. -/
theorem group_inline {cs : List Node} (hcs : ∀ c ∈ cs, c.lacks Node.misshapen = true)
    (hnone : Node.commentTextsAll cs = []) :
    Item.group (Item.inline ((Item.group cs).map (Item.onto Node.flatten))) =
      (Item.group cs).map (Item.onto Node.flatten) := by
  have hopen := flattened_of_no_comments hnone
  have haccount := account_inline fun i hi => (bare_of_no_comments hnone hi).1
  rw [← items_inlineScript .none ((Item.group cs).map (Item.onto Node.flatten))] at haccount
  have hflows : Flows 0 none (inlineScript .none ((Item.group cs).map (Item.onto Node.flatten))) :=
    flows_inlineScript hopen
  have hgroup := group_again (made_of_shape hcs) (markerDangles_of_no_comments hnone) hflows haccount
    [] (by rintro n ⟨⟩)
  rwa [List.append_nil, ← inline_eq_nodes hopen, items_inlineScript] at hgroup

/-- **Single lines stay.** -/
theorem flatten_flatten (n : Node) (hshape : n.lacks Node.misshapen = true)
    (hnone : n.commentTexts = []) : n.flatten.flatten = n.flatten := by
  revert hshape hnone
  refine item_induction (P := fun n => n.lacks Node.misshapen = true → n.commentTexts = [] →
    n.flatten.flatten = n.flatten) ?_ ?_ ?_ ?_ ?_ n
  · exact fun _ _ _ _ => rfl
  · intro b cs ih hshape hnone
    obtain ⟨hb, hcs⟩ := Node.lacks_branch.mp hshape
    have hb : b.isCollection = true := by simpa [Node.misshapen] using hb
    rw [Node.commentTexts_branch] at hnone
    have hagain : ((Item.group cs).map (Item.onto Node.flatten)).map (Item.onto Node.flatten) =
        (Item.group cs).map (Item.onto Node.flatten) := by
      rw [List.map_map]
      refine List.map_congr_left fun i hi => ?_
      have hi' := ih i hi ((made_of_shape hcs i hi).shape) (bare_of_no_comments hnone hi).2
      simp only [Function.comp_apply, Item.onto, hi']
    rw [flatten_branch hb, flatten_branch hb, group_inline hcs hnone, hagain]
  · intro m n ih hshape hnone
    simp only [Node.flatten, ih (Node.lacks_wrap.mp hshape).2 hnone]
  · intro m t ihm iht hshape hnone
    obtain ⟨-, hm, ht⟩ := Node.lacks_annotated.mp hshape
    rw [Node.commentTexts_annotated, List.append_eq_nil_iff] at hnone
    simp only [Node.flatten, ihm hm hnone.1, iht ht hnone.2]
  · exact fun _ _ => rfl

/-- **Single lines can be read.** -/
theorem readable_flatten (n : Node) (hfit : Fit n) (hform : n.isForm = true)
    (hnone : n.commentTexts = []) : Readable { node := n.flatten } := by
  revert hnone
  refine fit_induction (P := fun n => n.commentTexts = [] → Readable { node := n.flatten })
    ?_ ?_ ?_ ?_ ?_ n hfit hform
  · exact fun text hsound _ => ⟨hsound, Node.stands_atom hsound, by simp⟩
  · -- Without comments nothing closes the line, so the items make a clean page.
    intro b cs hb hcs _ ih hnone
    rw [Node.commentTexts_branch] at hnone
    have hopen := flattened_of_no_comments hnone
    have hneat : ∀ j ∈ (Item.group cs).map (Item.onto Node.flatten), j.Neat := by
      intro j hj
      obtain ⟨i, hi, rfl⟩ := List.mem_map.mp hj
      obtain ⟨hclosed, hnone⟩ := bare_of_no_comments hnone hi
      have hread := ih i hi (Bool.or_eq_false_iff.mp hclosed).1 hnone
      cases made_of_fit hcs i hi with
      | comment => cases hclosed
      | element form made marked trailing =>
        exact .element ((Node.inward_flatten.isForm _).trans form) ⟨hread.sound, hread.stands⟩
          marked trailing
    have hclean : Page.Clean (inlinePage ((Item.group cs).map (Item.onto Node.flatten))) :=
      ⟨flows_inlineScript hopen, by rwa [inlinePage, items_inlineScript], Int.le_refl 0⟩
    refine hclean.readable (by rintro _ ⟨⟩) hb ⟨?_, rfl⟩
    rw [children_inlinePage hopen]
    exact flatten_branch hb cs
  · intro m cs hm ih hnone
    exact readable_fused hm (ih hnone) (Node.list cs).face_flatten
  · intro m n hm hwhole haccepts hform hderef ih hnone
    exact readable_wrap hm hwhole haccepts hform (ih hnone) n.face_flatten hderef
  · intro m t hm ht ihm iht hnone
    rw [Node.commentTexts_annotated, List.append_eq_nil_iff] at hnone
    exact readable_annotated hm ht (ihm hnone.1) (iht hnone.2) m.face_flatten t.face_flatten

end Layout

end CljTidy
