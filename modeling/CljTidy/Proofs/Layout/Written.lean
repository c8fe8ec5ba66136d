/-
  What is said on a page.

  Of the nodes of a script, the forms are the markers and elements of its items, in order
  (`forms_script`), and its comments are those of the items and those in their elements
  (`comments_script`); gaps say nothing.  So a page holds what its items held if the elements do
  (`forms_page`), and a page whose elements keep their comments keeps its own: what is on the page
  and what leaves it is, in tidy form and in some order, what was in the items (`comments_page`).
-/
import CljTidy.Proofs.Layout.Account

namespace CljTidy.Layout

/-! ## Forms -/

section

variable {α : Type} (f : Node → List α)

/-- Trivia holds no forms. -/
theorem forms_noise {ns : List Node} (h : ∀ n ∈ ns, n.isNoise = true) :
    ns.filter Node.isForm = [] := by
  refine List.filter_eq_nil_iff.mpr fun n hn => ?_
  simp [Node.isForm, h n hn]

/-- The nodes of an item hold its marker and its element. -/
theorem forms_written {P : Node → Prop} {Q : String → Prop} {i : Item} (h : i.Made P Q) :
    (i.written.filter Node.isForm).flatMap f = Item.holdings f [i] := by
  have hspace : (Node.space " ").isForm = false := rfl
  have hcomment : ∀ text, (Node.comment text).isForm = false := fun _ => rfl
  have hatom : ∀ text, (Node.atom text).isForm = true := fun _ => rfl
  cases h with
  | @comment text =>
    rw [Item.holdings_comment f rfl]
    rfl
  | @element node marker comment form =>
    have hnot : (⟨node, marker, comment⟩ : Item).isComment = false := (Node.isForm_iff.mp form).2
    rw [Item.holdings_element f hnot]
    cases marker <;> cases comment <;>
      simp [Item.written, Item.inlineNodes, Item.trailingNodes, Item.holding, Item.core, form,
        hspace, hcomment, hatom]

/-- The forms of a script are the markers and elements of its items. -/
theorem forms_script {P : Node → Prop} {Q : String → Prop} {s : Script}
    (h : ∀ i ∈ s.items, i.Made P Q) :
    (s.nodes.filter Node.isForm).flatMap f = Item.holdings f s.items := by
  induction s with
  | nil => rfl
  | cons p s ih =>
    obtain ⟨hp, hs⟩ := List.forall_mem_cons.mp h
    have hitems : Script.items (p :: s) = [p.item] ++ Script.items s := rfl
    rw [Script.nodes_cons, Placed.nodes, List.filter_append, List.filter_append,
      forms_noise (noise_gap p.gap), List.nil_append, List.flatMap_append, forms_written f hp, ih hs,
      hitems, Item.holdings_append]

/-- The line break in front of a bracket adds nothing. -/
theorem forms_children (p : Page) :
    p.children.filter Node.isForm = p.script.nodes.filter Node.isForm := by
  unfold Page.children
  rw [List.filter_append]
  split
  · rw [forms_noise (noise_gap _), List.append_nil]
  · rw [List.filter_nil, List.append_nil]

/-- **Forms of a page.**  If the elements hold the same as they come out, so does the page. -/
theorem forms_page {P : Node → Prop} {Q : String → Prop} {site : Lay → Int → Prop}
    {items : List Item} (hmade : ∀ i ∈ items, i.Made P Q) {script : Script} {leaving : List String}
    (haccount : Account site items script.items leaving)
    (hkeeps : ∀ l column, site l column → ∀ i ∈ items, i.isComment = false →
      f (l column i.element).node = f i.element) :
    (script.nodes.filter Node.isForm).flatMap f = Item.holdings f items := by
  obtain ⟨ps, h⟩ := haccount
  have hout : ∀ i ∈ script.items, i.Made (fun _ => True) fun _ => True :=
    h.made hmade (fun _ _ _ _ => trivial) fun _ _ => trivial
  -- The elements that came in and those that came out are both listed by the placings.
  rw [forms_script f hout, Item.holdings, Item.holdings, h.input, h.output, List.flatMap_map,
    List.flatMap_map]
  refine congrArg List.flatten (List.map_congr_left fun p hp => ?_)
  obtain ⟨i, hi, hnot, hcore⟩ := h.placed hp
  injection hcore with helement hmarker
  have hk := hkeeps p.lay p.column (h.sites p hp).2 i hi hnot
  rw [helement] at hk
  simp only [Item.holding, Placing.rendered, hk]

end

/-! ## Comments -/

section

variable {f : Node → List String} (hf : TellsComments f)

include hf

theorem comments_noise {ns : List Node} (h : ∀ n ∈ ns, n.isNoise = true) : ns.flatMap f = [] :=
  List.flatMap_eq_nil_iff.mpr fun n hn => hf.noise n (h n hn)

/-- The comments of an item are the one that trails it and those in its element. -/
theorem comments_written {i : Item}
    (h : i.isComment = true → i.marker = none ∧ i.comment = none) :
    (i.written.flatMap f).Perm (i.commentTexts ++ Item.holdings f [i]) := by
  have hspace := hf.noise (.space " ") rfl
  obtain ⟨element, marker, comment⟩ := i
  cases hc : (⟨element, marker, comment⟩ : Item).isComment with
  | true =>
    obtain ⟨rfl, rfl⟩ : marker = none ∧ comment = none := h hc
    obtain ⟨text, rfl⟩ := Node.eq_comment hc
    have htexts : (Item.mk (.comment text) none none).commentTexts = [text] := rfl
    rw [Item.holdings_comment f rfl, htexts]
    exact .of_eq (by simp [Item.written, Item.inlineNodes, Item.trailingNodes, hf.comment])
  | false =>
    rw [Item.holdings_element f hc, Item.commentTexts_of_not hc]
    rw [List.perm_iff_count]
    intro text
    cases marker <;> cases comment <;>
      simp [Item.written, Item.inlineNodes, Item.trailingNodes, Item.holding, Item.core, hspace,
        hf.comment, List.count_append, List.count_cons]
    all_goals omega

/-- The comments of a script are those of its items and those in their elements. -/
theorem comments_script {s : Script}
    (h : ∀ i ∈ s.items, i.isComment = true → i.marker = none ∧ i.comment = none) :
    (s.nodes.flatMap f).Perm (Item.comments s.items ++ Item.holdings f s.items) := by
  induction s with
  | nil => exact .refl _
  | cons p s ih =>
    obtain ⟨hp, hs⟩ := List.forall_mem_cons.mp h
    have hboth := (comments_written hf hp).append (ih hs)
    have hitems : Script.items (p :: s) = [p.item] ++ Script.items s := rfl
    rw [Script.nodes_cons, Placed.nodes, hitems, Item.holdings_append, Item.comments_append,
      List.flatMap_append, List.flatMap_append, comments_noise hf (noise_gap p.gap),
      List.nil_append]
    rw [Item.comments_cons, Item.comments_nil, List.append_nil]
    exact hboth.trans (perm_exchange ..)

/-- The line break in front of a bracket adds nothing. -/
theorem comments_children (p : Page) : p.children.flatMap f = p.script.nodes.flatMap f := by
  unfold Page.children
  rw [List.flatMap_append]
  split
  · rw [comments_noise hf (noise_gap _), List.append_nil]
  · rw [List.flatMap_nil, List.append_nil]

end

/-- The comments told of what comes out, read as `t` says, and those that leave, are the comments of
    the node in their tidy form. -/
def KeepsComments (f : Node → List String) (t : String → String) (r : Rendered) (n : Node) : Prop :=
  ((f r.node).map t ++ r.hoisted.map Comment.tidy).Perm ((f n).map Comment.tidy)

/-- Parts put together one by one. -/
theorem perm_flatMap {α β : Type} {ps : List α} {f g k : α → List β}
    (h : ∀ p ∈ ps, (f p ++ g p).Perm (k p)) :
    (ps.flatMap f ++ ps.flatMap g).Perm (ps.flatMap k) := by
  induction ps with
  | nil => exact .refl _
  | cons p ps ih =>
    have hrest := ih fun q hq => h q (List.mem_cons_of_mem _ hq)
    have hboth := (h p (List.mem_cons_self ..)).append hrest
    rw [List.flatMap_cons, List.flatMap_cons, List.flatMap_cons]
    exact (perm_exchange ..).trans hboth

/-- **Comments of a page.**  If the elements keep their comments, so does the page. -/
theorem comments_page {f : Node → List String} (hf : TellsComments f) {t : String → String}
    (ht : ∀ text, t (Comment.tidy text) = Comment.tidy text) {site : Lay → Int → Prop}
    {items : List Item} {script : Script} {leaving : List String}
    (haccount : Account site items script.items leaving)
    (hmarkers : ∀ i ∈ items, ∀ m ∈ i.marker, f (.atom m) = [])
    (hkeeps : ∀ l column, site l column → ∀ i ∈ items, i.isComment = false →
      KeepsComments f t (l column i.element) i.element) :
    ((script.nodes.flatMap f).map t ++ leaving.map Comment.tidy).Perm
      ((Item.comments items ++ Item.holdings f items).map Comment.tidy) := by
  obtain ⟨ps, h⟩ := haccount
  have hmarker : ∀ p ∈ ps, ∀ n : Node, Item.holding f (n, p.marker) = f n := by
    intro p hp n
    obtain ⟨i, hi, -, hcore⟩ := h.placed hp
    injection hcore with _ hm
    cases hpm : p.marker with
    | none => rfl
    | some m => simp [Item.holding, hmarkers i hi m (hm.trans hpm)]
  have hout : Item.holdings f script.items = ps.flatMap fun p => f p.rendered.node := by
    rw [Item.holdings, h.output, List.flatMap_map]
    exact congrArg List.flatten (List.map_congr_left fun p hp => hmarker p hp _)
  have hin : Item.holdings f items = ps.flatMap fun p => f p.element := by
    rw [Item.holdings, h.input, List.flatMap_map]
    exact congrArg List.flatten (List.map_congr_left fun p hp => hmarker p hp _)
  have helements : ((ps.flatMap fun p => (f p.rendered.node).map t) ++
      ps.flatMap fun p => p.rendered.hoisted.map Comment.tidy).Perm
      (ps.flatMap fun p => (f p.element).map Comment.tidy) := by
    refine perm_flatMap fun p hp => ?_
    obtain ⟨i, hi, hnot, hcore⟩ := h.placed hp
    injection hcore with helement _
    have hk := hkeeps p.lay p.column (h.sites p hp).2 i hi hnot
    rw [helement] at hk
    exact hk
  -- The comments of the items that come out are tidy already.
  have htidy : (Item.comments script.items).map t = Item.comments script.items := by
    refine List.map_congr_left (g := id) (fun text htext => ?_) |>.trans (List.map_id _)
    have hmem := h.comments.subset (List.mem_append_left _ htext)
    obtain ⟨raw, -, rfl⟩ := List.mem_map.mp hmem
    exact ht raw
  have hscript := (comments_script hf h.plain).map t
  have hpage := h.comments
  rw [hout, List.map_append, htidy, List.map_flatMap] at hscript
  rw [hin]
  simp only [List.map_append, List.map_flatMap] at hpage ⊢
  -- Count one text on the page, in the elements and in the account.
  rw [List.perm_iff_count] at hscript helements hpage ⊢
  intro text
  have h1 := hscript text
  have h2 := helements text
  have h3 := hpage text
  simp only [List.map_flatMap, List.count_append] at h1 h2 h3 ⊢
  omega

end CljTidy.Layout
