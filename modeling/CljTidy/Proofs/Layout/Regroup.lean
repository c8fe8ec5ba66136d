/-
  Grouping what was written.

  Grouping spreads discards and lets an `&` wait, so only some items can come of it: before the last
  element there is at most one discard on an element and no `&` on its own (`Tame`), and an `&` on
  its own ends the items, if no `&` has a comment next (`tame_group`).  Such items are found again
  in the nodes of a script that flows (`group_script`).
-/
import CljTidy.Proofs.Layout.Flow
import CljTidy.Proofs.Item.Grouping
import CljTidy.Proofs.Node.Lacks

namespace CljTidy

/-! ## Tame items -/

namespace Item

/-- An `&` that found no element. -/
def stray : Node × Option String := (.atom "&", none)

/-- Each element but the last has one discard at most and is not an `&` on its own. -/
def Tame (cs : List (Node × Option String)) : Prop :=
  ∀ c ∈ cs.dropLast, c.1.discardDepth ≤ 1 ∧ c ≠ stray

section

variable {P : Node × Option String → Prop} {c : Node × Option String}
  {cs : List (Node × Option String)}

/-- What holds of all but the last holds of all but the last behind the first. -/
theorem but_last_tail (h : ∀ d ∈ (c :: cs).dropLast, P d) : ∀ d ∈ cs.dropLast, P d := by
  cases cs with
  | nil => rintro d ⟨⟩
  | cons e cs => exact fun d hd => h d (List.mem_cons_of_mem _ hd)

/-- What holds of all but the last holds of the first, if something is behind it. -/
theorem but_last_head (h : ∀ d ∈ (c :: cs).dropLast, P d) (hcs : cs ≠ []) : P c := by
  rw [List.dropLast_cons_of_ne_nil hcs] at h
  exact h c (List.mem_cons_self ..)

/-- What is behind the first of tame items is tame. -/
theorem Tame.tail (h : Tame (c :: cs)) : Tame cs := but_last_tail h

/-- An element with something behind it. -/
theorem Tame.head (h : Tame (c :: cs)) (hcs : cs ≠ []) : c.1.discardDepth ≤ 1 ∧ c ≠ stray :=
  but_last_head h hcs

end

end Item

/-! ## Discards put back -/

namespace Node

theorem discardTimes_discard (n : Node) (k : Nat) :
    (discard n).discardTimes k = n.discardTimes (k + 1) := by
  induction k with
  | zero => rfl
  | succ k ih => exact congrArg discard ih

/-- Below all its discards, a node has none. -/
theorem discardDepth_discarded (n : Node) : n.discarded.discardDepth = 0 := by
  induction n using discarded.induct with
  | case1 child ih => exact ih
  | case2 n hn =>
    rw [discarded]
    · exact discardDepth_eq_zero hn
    · exact hn

/-- A node is what is below its discards, with all of them put back. -/
theorem discardTimes_discarded (n : Node) : n.discarded.discardTimes n.discardDepth = n := by
  induction n using discarded.induct with
  | case1 child ih => exact congrArg discard ih
  | case2 n hn =>
    rw [discarded, discardDepth_eq_zero hn]
    · rfl
    · exact hn

/-- The discards that were left over go back onto the element. -/
theorem discardTimes_spread (n : Node) :
    (spread n.discardDepth n).discardTimes (n.discardDepth - 1) = n := by
  unfold spread
  split
  · rename_i h
    rw [h]
    rfl
  · rw [discardTimes_discard, Nat.sub_add_cancel (by omega), discardTimes_discarded]

end Node

namespace Grouping

theorem discardFirst_zero (items : List Item) : discardFirst 0 items = items := by
  induction items with
  | nil => rfl
  | cons i items ih =>
    unfold discardFirst
    split
    · rw [ih]
    · rfl

/-- What finishing makes of items with no `&` waiting. -/
theorem finish_eq {g : Grouping} (h : g.marker = none) :
    g.finish = (discardFirst g.owed g.items).reverse := by
  rw [finish, flushMarker, h]

/-- Trivia tells only whether a line was broken. -/
theorem foldl_noise {ns : List Node} (h : ∀ n ∈ ns, n.isNoise = true) (g : Grouping) :
    ns.foldl step g = { g with lineBroken := g.lineBroken || ns.any Node.isNewline } := by
  induction ns generalizing g with
  | nil => simp
  | cons n ns ih =>
    obtain ⟨hn, hns⟩ := List.forall_mem_cons.mp h
    rw [List.foldl_cons, step_noise hn, ih hns]
    simp [Bool.or_assoc]

/-- At the end it does not matter whether the line was broken. -/
theorem finish_lineBroken (g : Grouping) (broken : Bool) :
    finish { g with lineBroken := broken } = g.finish := by
  obtain ⟨items, marker, owed, _⟩ := g
  cases marker <;> rfl

/-- A comment that cannot trail the last item stands alone. -/
theorem addComment_alone {g : Grouping} (h : g.lineBroken = true ∨ g.items = []) (text : String) :
    g.addComment text = { g with items := ⟨.comment text, none, none⟩ :: g.items } := by
  obtain ⟨items, marker, owed, broken⟩ := g
  cases items with
  | nil => rfl
  | cons i items =>
    obtain rfl : broken = true := by simpa using h
    simp [addComment]

/-- What an element with its marker and its trailing comment does, if no discards are owed. -/
theorem foldl_written {g : Grouping} (hmarker : g.marker = none) (howed : g.owed = 0) {i : Item}
    (hform : i.element.isForm = true) (hmark : i.marker = none ∨ i.marker = some "&")
    (hstray : i.core ≠ Item.stray) :
    i.written.foldl step g =
      ⟨⟨Node.spread i.element.discardDepth i.element, i.marker, i.comment⟩ :: g.items, none,
        i.element.discardDepth - 1, false⟩ := by
  obtain ⟨element, marker, comment⟩ := i
  obtain ⟨items, _, _, broken⟩ := g
  obtain rfl : _ = none := hmarker
  obtain rfl : _ = 0 := howed
  -- The marker first, if there is one, then the element takes it.
  have helement : (Item.inlineNodes ⟨element, marker, comment⟩).foldl step ⟨items, none, 0, broken⟩ =
      ⟨⟨Node.spread element.discardDepth element, marker, none⟩ :: items, none,
        element.discardDepth - 1, false⟩ := by
    have hadd : ∀ broken, addElement ⟨items, marker, 0, broken⟩ element =
        ⟨⟨Node.spread element.discardDepth element, marker, none⟩ :: items, none,
          element.discardDepth - 1, false⟩ := by
      intro broken
      simp [addElement, Node.spread]
    rcases hmark with rfl | rfl
    · have hstep :
          step ⟨items, none, 0, broken⟩ element = addElement ⟨items, none, 0, broken⟩ element :=
        step_element hform fun h => absurd (congrArg (·, none) h) hstray
      exact hstep.trans (hadd broken)
    · have hstep : step ⟨items, some "&", 0, false⟩ element =
          addElement ⟨items, some "&", 0, false⟩ element :=
        step_element hform (by rintro _ ⟨⟩)
      exact hstep.trans (hadd false)
  rw [Item.written, List.foldl_append, helement]
  cases comment with
  | none => rfl
  | some text =>
    have hnot : (Item.mk (Node.spread element.discardDepth element) marker none).isComment = false :=
      Node.isComment_spread hform _
    simp [Item.trailingNodes, step, flushMarker, addComment, hnot]

end Grouping

/-! ## What comes of grouping -/

namespace Grouping

/-- The elements so far have one discard at most, and none is an `&` on its own. -/
def Tame (g : Grouping) : Prop :=
  ∀ c ∈ Item.cores g.items, c.1.discardDepth ≤ 1 ∧ c ≠ Item.stray

/-- Spread, a node has one discard at most, and none if there are none to spread. -/
theorem depth_spread (n : Node) (depth : Nat) (h : depth = 0 → n.discardDepth = 0) :
    (Node.spread depth n).discardDepth ≤ 1 := by
  unfold Node.spread
  split
  · rename_i hd
    rw [h hd]
    exact Nat.zero_le 1
  · exact Nat.le_of_eq (by rw [Node.discardDepth, Node.discardDepth_discarded])

/-- So what is taken has one discard at most. -/
theorem depth_taken (g : Grouping) (n : Node) : (g.taken n).discardDepth ≤ 1 :=
  depth_spread n _ fun hd => by omega

/-- Only an atom is spread as that atom. -/
theorem eq_of_spread {depth : Nat} {n : Node} {text : String}
    (h : Node.spread depth n = .atom text) : n = .atom text := by
  unfold Node.spread at h
  split at h
  · exact h
  · cases h

/-- An element keeps the elements tame; an `&` only comes here behind another one. -/
theorem Tame.addElement {g : Grouping} (h : g.Tame) {n : Node} (hform : n.isForm = true)
    (hmarker : n = .atom "&" → g.marker ≠ none) : (g.addElement n).Tame := by
  intro c hc
  rw [cores_addElement g hform] at hc
  rcases List.mem_cons.mp hc with rfl | hc
  · refine ⟨g.depth_taken n, fun hstray => ?_⟩
    injection hstray with hnode hmark
    exact hmarker (eq_of_spread hnode) hmark
  · exact h c hc

end Grouping

/-- No comment is next, trivia aside. -/
def Node.noCommentNext (children : List Node) : Bool :=
  !(children.dropWhile Node.isNoise).head?.any Node.isComment

/-- The elements stay tame: an `&` that waits has no comment next. -/
theorem tame_foldl : ∀ (children : List Node) (g : Grouping), Node.markerDangles children = false →
    g.Tame → (g.marker ≠ none → Node.noCommentNext children = true) →
    (children.foldl Grouping.step g).Tame := by
  intro children
  induction children with
  | nil => exact fun g _ h _ => h
  | cons c children ih =>
    intro g hdangles htame hnext
    simp only [Node.markerDangles, Bool.or_eq_false_iff] at hdangles
    rw [List.foldl_cons]
    rcases g.step_cases c with ⟨hnoise, hs⟩ | ⟨text, rfl, hs⟩ | ⟨rfl, -, hs⟩ | ⟨hform, hm, hs⟩
    · -- Trivia: what is next is still next.
      rw [hs]
      refine ih _ hdangles.2 htame fun hmarker => ?_
      simpa [Node.noCommentNext, List.dropWhile_cons, hnoise] using hnext hmarker
    · -- A comment: then no `&` waits.
      have hmarker : g.marker = none := by
        cases hm : g.marker with
        | none => rfl
        | some m => cases hnext (by rw [hm]; rintro ⟨⟩)
      have hflush : g.flushMarker = g := by rw [Grouping.flushMarker, hmarker]
      rw [hs, hflush]
      refine ih _ hdangles.2 ?_ fun h => ?_
      · intro c hc
        rw [Grouping.cores_addComment] at hc
        exact htame c hc
      · exact absurd ((g.marker_addComment text).trans hmarker) h
    · -- An `&` that waits from now on.
      rw [hs]
      refine ih _ hdangles.2 htame fun _ => ?_
      simpa [Node.noCommentNext] using hdangles.1
    · -- A form takes the `&` that waits, if there is one.
      rw [hs]
      exact ih _ hdangles.2 (htame.addElement hform hm) fun h => absurd rfl h

/-- **Grouping tames.**  If no `&` has a comment next, the items are tame, and an `&` on its own
    ends them. -/
theorem tame_group {children : List Node} (h : Node.markerDangles children = false) :
    Item.Tame (Item.cores (Item.group children)) ∧
      (Item.stray ∈ Item.cores (Item.group children) → Item.EndsOpen (Item.group children)) := by
  have htame : (children.foldl Grouping.step {}).Tame :=
    tame_foldl children {} h (by rintro c ⟨⟩) fun h => absurd rfl h
  rw [Item.group]
  generalize children.foldl Grouping.step {} = g at htame
  have hitems : ∃ first, g.flushMarker.items = first ++ g.items ∧
      (first = [] ∨ ∃ text, first = [⟨.atom text, none, none⟩]) := by
    unfold Grouping.flushMarker
    split
    · exact ⟨[_], rfl, .inr ⟨_, rfl⟩⟩
    · exact ⟨[], rfl, .inl rfl⟩
  obtain ⟨first, hflush, hfirst⟩ := hitems
  have htail : ∀ c ∈ (Item.cores (first ++ g.items)).tail,
      c.1.discardDepth ≤ 1 ∧ c ≠ Item.stray := by
    intro c hc
    rcases hfirst with rfl | ⟨text, rfl⟩
    · exact htame c (List.mem_of_mem_tail hc)
    · rw [Item.cores_append] at hc
      exact htame c hc
  have hcores := Grouping.cores_discardFirst g.owed (first ++ g.items)
  rw [Grouping.finish, hflush, Item.cores_reverse, Item.Tame, List.dropLast_reverse]
  cases hall : Item.cores (first ++ g.items) with
  | nil =>
    rw [hall] at hcores
    rw [hcores]
    exact ⟨by rintro c ⟨⟩, by rintro ⟨⟩⟩
  | cons c cs =>
    rw [hall] at hcores htail
    rw [hcores]
    refine ⟨fun d hd => htail d (List.mem_reverse.mp hd), fun hmem => ?_⟩
    -- An `&` on its own can only be the last element, and then it was waiting to the end.
    rcases List.mem_cons.mp (List.mem_reverse.mp hmem) with hhead | hmem
    · injection hhead with hnode hmark
      have howed : g.owed = 0 := by
        cases hk : g.owed with
        | zero => rfl
        | succ k => rw [hk] at hnode; cases hnode
      rw [howed] at hnode ⊢
      rw [Grouping.discardFirst_zero]
      rcases hfirst with rfl | ⟨text, rfl⟩
      · have hc : c ∈ Item.cores g.items := by
          rw [List.nil_append] at hall
          rw [hall]
          exact List.mem_cons_self ..
        exact absurd (Prod.ext hnode.symm hmark.symm) (htame c hc).2
      · rw [List.reverse_append, List.reverse_singleton, Item.endsOpen_append (by simp),
          Item.endsOpen_singleton]
        rfl
    · exact absurd rfl (htail _ hmem).2

namespace Grouping

/-- A comment taken last is the last item. -/
theorem finish_comment (items : List Item) (owed : Nat) (broken broken' : Bool) (text : String) :
    finish ⟨⟨.comment text, none, none⟩ :: items, none, owed, broken⟩ =
      finish ⟨items, none, owed, broken'⟩ ++ [⟨.comment text, none, none⟩] := by
  have hcomment : (⟨.comment text, none, none⟩ : Item).isComment = true := rfl
  rw [finish_eq rfl, finish_eq rfl, discardFirst, if_pos hcomment, List.reverse_cons]

/-- An element taken last gets back the discards that were left over. -/
theorem finish_element (items : List Item) {node : Node} (hform : node.isForm = true)
    (marker comment : Option String) (broken : Bool) :
    finish ⟨⟨Node.spread node.discardDepth node, marker, comment⟩ :: items, none,
      node.discardDepth - 1, broken⟩ = items.reverse ++ [⟨node, marker, comment⟩] := by
  have hnot : (Item.mk (Node.spread node.discardDepth node) marker comment).isComment = false :=
    Node.isComment_spread hform _
  rw [finish_eq rfl, discardFirst, if_neg (Bool.eq_false_iff.mp hnot), List.reverse_cons,
    Node.discardTimes_spread]

/-- An `&` that waits to the end is the last item. -/
theorem finish_stray (items : List Item) (broken : Bool) :
    finish ⟨items, some "&", 0, broken⟩ = items.reverse ++ [⟨.atom "&", none, none⟩] := by
  show (discardFirst 0 (⟨.atom "&", none, none⟩ :: items)).reverse = _
  rw [discardFirst_zero, List.reverse_cons]

end Grouping

namespace Layout

/-! ## Scripts that are grouped -/

/-- Items that are found again where `owed` discards are left over: while there are any, only
    comments follow. -/
structure Regroups (owed : Nat) (items : List Item) : Prop where
  made : ∀ i ∈ items, i.Made (fun _ => True) fun _ => True
  tame : Item.Tame (Item.cores items)
  owes : owed ≠ 0 → Item.cores items = []
  stray : Item.stray ∈ Item.cores items → Item.EndsOpen items

/-- Behind a comment the same discards are left over. -/
theorem Regroups.behind_comment {owed : Nat} {text : String} {items : List Item}
    (h : Regroups owed (⟨.comment text, none, none⟩ :: items)) : Regroups owed items := by
  have hcomment : (⟨.comment text, none, none⟩ : Item).isComment = true := rfl
  obtain ⟨hmade, htame, howes, hstray⟩ := h
  rw [Item.cores_cons_comment hcomment] at htame howes hstray
  refine ⟨(List.forall_mem_cons.mp hmade).2, htame, howes, fun hmem => ?_⟩
  have hopen : Item.EndsOpen ([] ++ ⟨.comment text, none, none⟩ :: items) := hstray hmem
  exact hopen.of_closes rfl

/-- In front of an element no discards are left over. -/
theorem Regroups.owed_eq {owed : Nat} {i : Item} {items : List Item}
    (h : Regroups owed (i :: items)) (hi : i.isComment = false) : owed = 0 := by
  by_cases howed : owed = 0
  · exact howed
  · have hcores := h.owes howed
    rw [Item.cores_cons_element hi] at hcores
    cases hcores

/-- Behind an element all its discards but one are left over. -/
theorem Regroups.behind_element {owed : Nat} {i : Item} {items : List Item}
    (h : Regroups owed (i :: items)) (hi : i.isComment = false) :
    Regroups (i.element.discardDepth - 1) items := by
  obtain ⟨hmade, htame, -, hstray⟩ := h
  rw [Item.cores_cons_element hi] at htame hstray
  refine ⟨(List.forall_mem_cons.mp hmade).2, htame.tail, fun hdepth => ?_, fun hmem => ?_⟩
  · by_cases hcores : Item.cores items = []
    · exact hcores
    · have hone : i.element.discardDepth ≤ 1 := (htame.head hcores).1
      omega
  · have hopen := hstray (List.mem_cons_of_mem _ hmem)
    rw [← List.singleton_append, Item.endsOpen_append] at hopen
    · exact hopen
    · rintro rfl
      cases hmem

/-- An `&` on its own: nothing stands behind it. -/
theorem Regroups.of_stray {owed : Nat} {i : Item} {items : List Item}
    (h : Regroups owed (i :: items)) (hi : i.isComment = false) (hcore : i.core = Item.stray) :
    i = ⟨.atom "&", none, none⟩ ∧ items = [] := by
  obtain ⟨-, htame, -, hstray⟩ := h
  rw [Item.cores_cons_element hi] at htame hstray
  have hlast : Item.cores items = [] := by
    by_cases hcores : Item.cores items = []
    · exact hcores
    · exact absurd hcore (htame.head hcores).2
  have hopen := hstray (by rw [hcore]; exact List.mem_cons_self ..)
  obtain rfl : items = [] := by
    cases items with
    | nil => rfl
    | cons j items =>
      rw [← List.singleton_append, Item.endsOpen_append (by simp)] at hopen
      exact absurd hlast hopen.cores_ne_nil
  obtain ⟨node, marker, comment⟩ := i
  injection hcore with hnode hmark
  subst hnode hmark
  have hclosed := Item.endsOpen_singleton.mp hopen
  obtain rfl : comment = none := by simpa [Item.closesLine, hi] using hclosed
  exact ⟨rfl, rfl⟩

/-- A gap that starts a line has a line break in it. -/
theorem isNewline_line (column : Int) (blank : Bool) :
    (Gap.line column blank).nodes.any Node.isNewline = true := by
  simp [Gap.nodes, Buffer.breakNodes, Node.isNewline]

/-- A gap can only break the line, and it does in front of a comment. -/
theorem foldl_gap {low : Int} {before : Option Item} {gap : Gap} {i : Item} {s : Script}
    (h : Flows low before (⟨gap, i⟩ :: s)) {g : Grouping} (hfirst : before = none → g.items = []) :
    ∃ broken, gap.nodes.foldl Grouping.step g = { g with lineBroken := broken } ∧
      (i.isComment = true → broken = true ∨ g.items = []) := by
  refine ⟨_, Grouping.foldl_noise (noise_gap gap) g, fun hc => ?_⟩
  have hfits := h.1
  cases before with
  | none => exact .inr (hfirst rfl)
  | some j =>
    left
    cases gap with
    | none => exact hfits.elim
    | space =>
      rw [hfits.2] at hc
      cases hc
    | line column blank => rw [isNewline_line, Bool.or_true]

/-- The items of a script are added to the items so far. -/
theorem finish_script {low : Int} (s : Script) : ∀ (before : Option Item) (g : Grouping),
    Flows low before s → (before = none → g.items = []) → g.marker = none →
    Regroups g.owed s.items →
    (s.nodes.foldl Grouping.step g).finish = g.finish ++ s.items := by
  induction s with
  | nil => intro before g _ _ _ _; simp
  | cons p s ih =>
    intro before g hflows hfirst hmarker hitems
    obtain ⟨gap, i⟩ := p
    -- The gap does nothing but tell whether the line was broken.
    obtain ⟨broken, hgap, halone⟩ := foldl_gap hflows hfirst
    obtain ⟨items, marker, owed, start⟩ := g
    obtain rfl : marker = none := hmarker
    have hnodes : (Script.nodes (⟨gap, i⟩ :: s)).foldl Grouping.step ⟨items, none, owed, start⟩ =
        (Script.nodes s).foldl Grouping.step
          (i.written.foldl Grouping.step ⟨items, none, owed, broken⟩) := by
      rw [Script.nodes_cons, Placed.nodes, List.foldl_append, List.foldl_append, hgap]
    rw [Script.items_cons] at hitems ⊢
    rw [hnodes]
    cases hitems.made i (List.mem_cons_self ..) with
    -- It starts a line, so it cannot trail the item before.
    | @comment text =>
      have hstep : (Item.mk (.comment text) none none).written.foldl Grouping.step
          ⟨items, none, owed, broken⟩ = ⟨⟨.comment text, none, none⟩ :: items, none, owed, broken⟩ :=
        Grouping.addComment_alone (halone rfl) text
      have hrest := ih (some ⟨.comment text, none, none⟩)
        ⟨⟨.comment text, none, none⟩ :: items, none, owed, broken⟩ hflows.2 (by rintro ⟨⟩) rfl
        hitems.behind_comment
      rw [hstep, hrest, Grouping.finish_comment items owed broken start, List.append_assoc]
      rfl
    | @element node marker comment form made marked trailing =>
      have hnot : (⟨node, marker, comment⟩ : Item).isComment = false := (Node.isForm_iff.mp form).2
      obtain rfl : owed = 0 := hitems.owed_eq hnot
      have hfinish : Grouping.finish ⟨items, none, 0, start⟩ = items.reverse := by
        rw [Grouping.finish_eq rfl, Grouping.discardFirst_zero]
      rw [hfinish]
      by_cases hlone : (⟨node, marker, comment⟩ : Item).core = Item.stray
      · -- It waits to the end.
        obtain ⟨hi, hs⟩ := hitems.of_stray hnot hlone
        obtain rfl : s = [] := List.map_eq_nil_iff.mp hs
        cases hi
        exact Grouping.finish_stray items false
      · -- It is taken with its marker and its comment, and its discards but one are left over.
        have hrest := ih (some ⟨node, marker, comment⟩)
          ⟨⟨Node.spread node.discardDepth node, marker, comment⟩ :: items, none,
            node.discardDepth - 1, false⟩ hflows.2 (by rintro ⟨⟩) rfl (hitems.behind_element hnot)
        rw [Grouping.foldl_written rfl rfl form marked hlone, hrest,
          Grouping.finish_element items form, List.append_assoc]
        rfl

/-- **Grouping again.**  The items of a script that flows are the items of its nodes, trivia at the
    end aside. -/
theorem group_script {low : Int} {s : Script} (hflows : Flows low none s)
    (hmade : ∀ i ∈ s.items, i.Made (fun _ => True) fun _ => True)
    (htame : Item.Tame (Item.cores s.items))
    (hstray : Item.stray ∈ Item.cores s.items → Item.EndsOpen s.items) {ns : List Node}
    (hnoise : ∀ n ∈ ns, n.isNoise = true) : Item.group (s.nodes ++ ns) = s.items := by
  have hitems : Regroups 0 s.items := ⟨hmade, htame, fun h => absurd rfl h, hstray⟩
  rw [Item.group, List.foldl_append, Grouping.foldl_noise hnoise, Grouping.finish_lineBroken,
    finish_script s none {} hflows (fun _ => rfl) rfl hitems]
  rfl

end Layout

end CljTidy
