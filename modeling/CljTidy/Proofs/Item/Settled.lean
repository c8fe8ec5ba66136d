/-
  Grouping undoes writing out.

  Items that are written out (`Item.ungroup`) and grouped again come back only if grouping could
  have made them: `#_ #_ a` in front of another element would be spread out, and an `&` on its own
  would wait for the element behind it.  `Settled` says what grouping makes, whatever the children:

  1. an item is a comment alone, or a form with an `&` and a comment at most (`Made`);
  2. only the last element has discards on top of each other, those with nothing left to discard;
  3. an `&` that found no element has a comment behind it, or nothing (`Adjoins`), because it is a
     comment that ends its wait, or the end.

  The crux is `finish_ungroupFrom`: the nodes of settled items, taken in behind anything else, add
  exactly these items to what finishing makes.  What carries the induction is that an `&` may still
  wait and discards may still be owed, as long as only comments follow; finishing puts both where
  they were.
-/
import CljTidy.Proofs.Layout.Regroup
import Mathlib.Data.List.Chain

namespace CljTidy

/-! ## Settled items -/

namespace Item

/-- An `&` on its own with no comment behind it on its line. -/
def lone : Item := ⟨.atom "&", none, none⟩

/-- Behind an `&` on its own a comment comes next. -/
def Adjoins (i j : Item) : Prop := i = lone → j.isComment = true

/-- Each element but the last has one discard at most. -/
def Shallow (cs : List (Node × Option String)) : Prop := ∀ c ∈ cs.dropLast, c.1.discardDepth ≤ 1

/-- Items as grouping makes them. -/
structure Settled (items : List Item) : Prop where
  made : ∀ i ∈ items, i.Made (fun _ => True) fun _ => True
  shallow : Shallow (cores items)
  adjoins : items.IsChain Adjoins

theorem Shallow.tail {c : Node × Option String} {cs : List (Node × Option String)}
    (h : Shallow (c :: cs)) : Shallow cs :=
  but_last_tail h

/-- An element with another one behind it has one discard at most. -/
theorem Shallow.head {c : Node × Option String} {cs : List (Node × Option String)}
    (h : Shallow (c :: cs)) (hcs : cs ≠ []) : c.1.discardDepth ≤ 1 :=
  but_last_head h hcs

theorem Settled.tail {i : Item} {items : List Item} (h : Settled (i :: items)) :
    Settled items := by
  refine ⟨(List.forall_mem_cons.mp h.made).2, ?_, (List.isChain_cons.mp h.adjoins).2⟩
  cases hi : i.isComment with
  | true => exact (cores_cons_comment hi items) ▸ h.shallow
  | false => exact Shallow.tail ((cores_cons_element hi items) ▸ h.shallow)

/-- Discards that are left over on an element have only comments behind them. -/
theorem Settled.owes {i : Item} {items : List Item} (h : Settled (i :: items))
    (hi : i.isComment = false) (hdepth : i.element.discardDepth - 1 ≠ 0) : cores items = [] := by
  by_cases hcores : cores items = []
  · exact hcores
  · have hone : i.element.discardDepth ≤ 1 :=
      Shallow.head ((cores_cons_element hi items) ▸ h.shallow) hcores
    omega

/-- Behind an `&` on its own, a comment is next or nothing. -/
theorem Settled.comment_next {items : List Item} (h : Settled (lone :: items)) :
    ∀ j ∈ items.head?, j.isComment = true :=
  fun j hj => (List.isChain_cons.mp h.adjoins).1 j hj rfl

/-- The nodes of an element are what is written on its line, and a line break behind a comment. -/
theorem nodes_element {i : Item} (h : i.isComment = false) :
    i.nodes = i.written ++ i.comment.toList.map fun _ => .newline "\n" := by
  obtain ⟨element, marker, comment⟩ := i
  cases marker <;> cases comment <;> simp [nodes, written, inlineNodes, trailingNodes, h]

theorem leavesLineOpen_element {i : Item} (h : i.element.isForm = true) :
    i.leavesLineOpen = i.comment.isNone := by
  have hcomment := (Node.isForm_iff.mp h).2
  simp [leavesLineOpen, isComment, hcomment, Node.isNewline_of_form h]

end Item

/-! ## Writing out and grouping again -/

namespace Grouping

/-- Finishing puts a waiting `&` behind the items, so it may as well be there already. -/
theorem finish_flushed (g : Grouping) (broken : Bool) :
    finish ⟨g.flushMarker.items, none, g.owed, broken⟩ = g.finish := rfl

/-- What separates an item from the one before it breaks the line in front of a comment. -/
theorem foldl_separator (g : Grouping) (lineOpen : Bool) (i : Item) :
    (if lineOpen then [i.separator] else []).foldl step g =
      { g with lineBroken := g.lineBroken || (lineOpen && i.isComment) } := by
  cases lineOpen with
  | false => simp
  | true =>
    have hnoise : i.separator.isNoise = true := by
      unfold Item.separator
      split <;> rfl
    have hnewline : i.separator.isNewline = i.isComment := by
      unfold Item.separator
      split <;> simp_all [Node.isNewline]
    rw [if_pos rfl, List.foldl_cons, List.foldl_nil, step_noise hnoise, hnewline, Bool.true_and]

/-- A comment at the start of a line stands alone, behind an `&` that waited. -/
theorem foldl_nodes_comment {g : Grouping} (hbroken : g.lineBroken = true) (text : String) :
    (Item.nodes ⟨.comment text, none, none⟩).foldl step g =
      ⟨⟨.comment text, none, none⟩ :: g.flushMarker.items, none, g.owed, true⟩ := by
  obtain ⟨items, marker, owed, broken⟩ := g
  obtain rfl : broken = true := hbroken
  cases marker with
  | none =>
    show step (addComment ⟨items, none, owed, true⟩ text) (.newline "\n") = _
    rw [addComment_alone (.inl rfl)]
    rfl
  | some m =>
    show step (addComment ⟨⟨.atom m, none, none⟩ :: items, none, owed, true⟩ text)
      (.newline "\n") = _
    rw [addComment_alone (.inl rfl)]
    rfl

/-- An element is taken in as it is, up to the discards that are left over; an `&` on its own waits
    instead, unless a comment is behind it on its line. -/
theorem foldl_nodes_element {g : Grouping} (hmarker : g.marker = none) (howed : g.owed = 0)
    {i : Item} (hform : i.element.isForm = true) (hmark : i.marker = none ∨ i.marker = some "&")
    (hlone : i ≠ Item.lone) :
    i.nodes.foldl step g =
      ⟨⟨Node.spread i.element.discardDepth i.element, i.marker, i.comment⟩ :: g.items, none,
        i.element.discardDepth - 1, i.comment.isSome⟩ := by
  have hnot : i.isComment = false := (Node.isForm_iff.mp hform).2
  rw [Item.nodes_element hnot, List.foldl_append]
  obtain ⟨element, marker, comment⟩ := i
  obtain ⟨items, _, _, broken⟩ := g
  obtain rfl : _ = none := hmarker
  obtain rfl : _ = 0 := howed
  have hwritten : (Item.written ⟨element, marker, comment⟩).foldl step ⟨items, none, 0, broken⟩ =
      ⟨⟨Node.spread element.discardDepth element, marker, comment⟩ :: items, none,
        element.discardDepth - 1, false⟩ := by
    by_cases hstray : (⟨element, marker, comment⟩ : Item).core = Item.stray
    · -- The comment ends the wait of the `&` and trails it.
      obtain ⟨rfl, rfl⟩ := Prod.mk.inj hstray
      cases comment with
      | none => exact absurd rfl hlone
      | some text => rfl
    · exact foldl_written rfl rfl hform hmark hstray
  rw [hwritten]
  cases comment <;> rfl

/-- **Settled items are found again.**  Their nodes, taken in behind anything else, add these items
    to what finishing makes. -/
theorem finish_ungroupFrom {items : List Item} (hitems : Item.Settled items) {g : Grouping}
    (lineOpen : Bool)
    (hmarker : g.marker = none ∨ ∀ i ∈ items.head?, i.isComment = true)
    (howed : g.owed ≠ 0 → Item.cores items = [])
    (hopen : lineOpen = false → g.lineBroken = true) :
    ((Item.ungroupFrom lineOpen items).foldl step g).finish = g.finish ++ items := by
  -- A line that is not open has been broken, so a comment on it stands alone.
  induction items generalizing g lineOpen with
  | nil => exact (List.append_nil _).symm
  | cons i items ih =>
    have hmade := hitems.made i (List.mem_cons_self ..)
    rw [Item.ungroupFrom, List.foldl_append, List.foldl_append, foldl_separator]
    cases hmade with
    | @comment text =>
      have hcomment : (⟨.comment text, none, none⟩ : Item).isComment = true := rfl
      rw [Item.cores_cons_comment hcomment] at howed
      have hbroken : (g.lineBroken || (lineOpen && true)) = true := by
        cases lineOpen with
        | false => simp [hopen rfl]
        | true => simp
      rw [foldl_nodes_comment hbroken]
      refine (ih hitems.tail (g := ⟨_, none, g.owed, true⟩) _ (.inl rfl) howed fun _ => rfl).trans ?_
      rw [finish_comment _ _ _ true, finish_flushed, finish_lineBroken, List.append_assoc]
      rfl
    | @element node marker comment form made marked trailing =>
      have hnot : (⟨node, marker, comment⟩ : Item).isComment = false := (Node.isForm_iff.mp form).2
      have hnone : g.marker = none := by
        refine hmarker.resolve_right fun h => ?_
        rw [h _ rfl] at hnot
        cases hnot
      have hzero : g.owed = 0 := by
        by_cases h : g.owed = 0
        · exact h
        · have hcores := howed h
          rw [Item.cores_cons_element hnot] at hcores
          cases hcores
      obtain ⟨before, _, _, broken⟩ := g
      obtain rfl : _ = none := hnone
      obtain rfl : _ = 0 := hzero
      have hbefore : finish ⟨before, none, 0, broken⟩ = before.reverse := by
        rw [finish_eq rfl, discardFirst_zero]
      rw [hbefore]
      by_cases hlone : (⟨node, marker, comment⟩ : Item) = Item.lone
      · -- It waits for the comment behind it, or to the end.
        rw [hlone] at hitems ⊢
        have hrest := ih hitems.tail (g := ⟨before, some "&", 0, false⟩) true
          (.inr hitems.comment_next) (fun h => absurd rfl h) (by rintro ⟨⟩)
        rw [finish_stray, List.append_assoc] at hrest
        exact hrest
      · rw [foldl_nodes_element rfl rfl form marked hlone,
          ih hitems.tail (g := ⟨_, none, _, comment.isSome⟩) _ (.inl rfl) (hitems.owes hnot)
            fun h => ?_]
        · rw [finish_element before form, List.append_assoc]
          rfl
        · rw [Item.leavesLineOpen_element form] at h
          cases comment with
          | none => cases h
          | some text => rfl

end Grouping

/-- **Items written out are found again**, if grouping could have made them. -/
theorem group_ungroup_settled {items : List Item} (h : Item.Settled items) :
    Item.group (Item.ungroup items) = items :=
  Grouping.finish_ungroupFrom h (g := {}) false (.inl rfl) (fun h => absurd rfl h) fun _ => rfl

/-! ## Grouping settles -/

namespace Grouping

/-- The elements so far have one discard at most; an `&` on its own has a comment behind it, or it
    is the last item (the first one here). -/
structure Settles (g : Grouping) : Prop where
  shallow : ∀ c ∈ Item.cores g.items, c.1.discardDepth ≤ 1
  adjoins : g.items.IsChain fun j i => i.Adjoins j
  last : ∀ i ∈ g.items.head?, i ≠ Item.lone

/-- An `&` that waited is the last item. -/
theorem Settles.flush {g : Grouping} (h : g.Settles) :
    (∀ c ∈ Item.cores g.flushMarker.items, c.1.discardDepth ≤ 1) ∧
      g.flushMarker.items.IsChain fun j i => i.Adjoins j := by
  unfold flushMarker
  split
  · rw [Item.cores_cons_element rfl]
    refine ⟨List.forall_mem_cons.mpr ⟨Nat.zero_le 1, h.shallow⟩, List.isChain_cons.mpr ⟨?_, h.adjoins⟩⟩
    exact fun i hi hlone => absurd hlone (h.last i hi)
  · exact ⟨h.shallow, h.adjoins⟩

/-- Behind a comment no `&` is on its own. -/
theorem settles_addComment {g : Grouping} (hshallow : ∀ c ∈ Item.cores g.items, c.1.discardDepth ≤ 1)
    (hadjoins : g.items.IsChain fun j i => i.Adjoins j) (text : String) :
    (g.addComment text).Settles := by
  suffices h : (g.addComment text).items.IsChain (fun j i => i.Adjoins j) ∧
      ∀ i ∈ (g.addComment text).items.head?, i ≠ Item.lone from
    ⟨fun c hc => hshallow c (by rwa [cores_addComment] at hc), h.1, h.2⟩
  obtain ⟨items, marker, owed, broken⟩ := g
  cases items with
  | nil => simp [addComment, Item.lone]
  | cons i items =>
    obtain ⟨hnext, hrest⟩ := List.isChain_cons.mp hadjoins
    simp only [addComment]
    split
    · rename_i hattach
      have hnot : i.isComment = false := by
        simp only [Bool.and_eq_true, Bool.not_eq_true'] at hattach
        exact hattach.1.2
      refine ⟨List.isChain_cons.mpr ⟨fun j hj hlone => ?_, hrest⟩, by simp [Item.lone]⟩
      rw [hnext j hj hlone] at hnot
      cases hnot
    · exact ⟨List.isChain_cons.mpr ⟨fun _ _ _ => rfl, hadjoins⟩, by simp [Item.lone]⟩

theorem Settles.step {g : Grouping} (h : g.Settles) (c : Node) : (g.step c).Settles := by
  rcases g.step_cases c with ⟨-, hs⟩ | ⟨text, rfl, hs⟩ | ⟨rfl, -, hs⟩ | ⟨hform, hm, hs⟩
  · rw [hs]
    exact ⟨h.shallow, h.adjoins, h.last⟩
  · rw [hs]
    exact settles_addComment h.flush.1 h.flush.2 text
  · rw [hs]
    exact ⟨h.shallow, h.adjoins, h.last⟩
  · rw [hs]
    refine ⟨fun d hd => ?_, ?_, ?_⟩
    · rw [cores_addElement g hform] at hd
      rcases List.mem_cons.mp hd with rfl | hd
      · exact g.depth_taken c
      · exact h.shallow d hd
    · exact List.isChain_cons.mpr ⟨fun i hi hlone => absurd hlone (h.last i hi), h.adjoins⟩
    · rintro i hi rfl
      have hlone : (⟨g.taken c, g.marker, none⟩ : Item) = Item.lone := Option.some_inj.mp hi
      injection hlone with helement hmarker
      exact hm (eq_of_spread helement) hmarker

/-- Discards put back change no `&` on its own but the last one, and leave comments alone. -/
theorem adjoins_discardFirst (k : Nat) {items : List Item}
    (h : items.IsChain fun j i => i.Adjoins j) :
    (discardFirst k items).IsChain fun j i => i.Adjoins j := by
  induction items with
  | nil => exact h
  | cons i items ih =>
    obtain ⟨hnext, hrest⟩ := List.isChain_cons.mp h
    unfold discardFirst
    split
    · rename_i hi
      exact List.isChain_cons.mpr ⟨fun _ _ _ => hi, ih hrest⟩
    · rename_i hi
      exact List.isChain_cons.mpr ⟨fun j hj hlone => absurd (hnext j hj hlone) hi, hrest⟩

end Grouping

/-- **Grouping settles**, whatever the children. -/
theorem settled_group (children : List Node) : Item.Settled (Item.group children) := by
  have hfold : (children.foldl Grouping.step {}).Settles := by
    refine Grouping.foldl_induction ⟨?_, List.IsChain.nil, ?_⟩ fun _ c _ h => h.step c
    · rintro c ⟨⟩
    · rintro i ⟨⟩
  obtain ⟨hshallow, hadjoins⟩ := hfold.flush
  refine ⟨made_of_group fun _ _ => trivial, ?_, ?_⟩
  · rw [Item.group, Grouping.finish, Item.cores_reverse, Item.Shallow, List.dropLast_reverse,
      Grouping.cores_discardFirst]
    intro c hc
    cases hcores : Item.cores (children.foldl Grouping.step {}).flushMarker.items with
    | nil => rw [hcores] at hc; cases hc
    | cons d ds =>
      rw [hcores] at hc hshallow
      exact hshallow c (List.mem_cons_of_mem _ (List.mem_reverse.mp hc))
  · exact List.isChain_reverse.mpr (Grouping.adjoins_discardFirst _ hadjoins)

/-- **Grouping again.**  The items of any children, written out, are grouped into the same items. -/
theorem group_ungroup_group (children : List Node) :
    Item.group (Item.ungroup (Item.group children)) = Item.group children :=
  group_ungroup_settled (settled_group children)

end CljTidy
