/-
  Pairing from the left.

  `PairsUp` says what pairing makes of items, without saying how: its keys, values and orphans are
  the elements in order, each key without its comment; its comments are those of the items in
  order; and if the elements are odd in number the last one is an orphan, with nothing but comments
  behind it.

  The elements are followed through the pass (`keeps_pairFrom`); the comments are counted already.
  The rest is read off the shape of the records: a pair holds two elements and an orphan one, and
  there is one orphan at most, so the number of elements says whether there is one
  (`Paired.countP_orphan`).  The shape is also why records that are written out are paired again the
  same way (`ofItems_itemsAll_ofItems`).
-/
import CljTidy.Proofs.Item.Parts

namespace CljTidy

namespace Record

/-! ## What records hold -/

/-- The record is an element without a value. -/
def isOrphan : Record → Bool
  | orphan _ => true
  | _ => false

/-- The elements of a record, each with whether it is a key. -/
def places : Record → List (Bool × Item)
  | pair key value => [(true, key), (false, value)]
  | comment _ => []
  | orphan item => [(false, item)]

/-- The comments of a record: itself, or what trails its value or its orphan. -/
def comments : Record → List String
  | pair _ value => value.comment.toList
  | comment text => [text]
  | orphan item => item.comment.toList

/-- In its place an item is kept, but a key may have lost its comment. -/
def Keeps (place : Bool × Item) (item : Item) : Prop :=
  place.2 = item ∨ place.1 = true ∧ place.2 = item.bare

/-- The records are the items, paired from the left. -/
structure PairsUp (items : List Item) (records : List Record) : Prop where
  elements : List.Forall₂ Keeps (records.flatMap places) (Item.elements items)
  comments : records.flatMap comments = Node.commentsAmong (items.flatMap Item.parts)
  keys : ∀ key value, .pair key value ∈ records → key.comment = none
  orphans : records.countP isOrphan = (Item.elements items).length % 2
  last : ∀ front item behind, records = front ++ .orphan item :: behind →
    ∀ r ∈ behind, r.isComment = true

/-! ## Elements -/

/-- Elements are kept as they are paired, the one that waits first. -/
theorem keeps_pairFrom (items : List Item) (waiting : Option (Item × List Record))
    (hheld : ∀ w ∈ waiting, w.2.flatMap places = []) :
    List.Forall₂ Keeps ((pairFrom waiting items).flatMap places)
      (waiting.toList.map Prod.fst ++ Item.elements items) := by
  fun_induction pairFrom waiting items with
  | case1 => exact .nil
  | case2 key held =>
    have hnone : held.flatMap places = [] := hheld _ rfl
    rw [List.flatMap_cons, hnone]
    exact .cons (.inl rfl) .nil
  | case3 i items hi ih =>
    rw [Item.elements, List.filter_cons, hi]
    exact ih (by rintro w ⟨⟩)
  | case4 i items hi ih =>
    rw [Item.elements, List.filter_cons, Bool.eq_false_iff.mpr hi]
    exact ih (by rintro w ⟨⟩; rfl)
  | case5 key held i items hi ih =>
    have hnone : held.flatMap places = [] := hheld _ rfl
    rw [Item.elements, List.filter_cons, hi]
    refine ih ?_
    rintro w ⟨⟩
    rw [List.flatMap_append, hnone]
    rfl
  | case6 key held i items hi ih =>
    have hnone : held.flatMap places = [] := hheld _ rfl
    have htrailing : (trailing key).flatMap places = [] := by
      unfold trailing
      cases key.comment <;> rfl
    -- What was held back are comments, so the value is the element behind its key.
    rw [Item.elements, List.filter_cons, Bool.eq_false_iff.mpr hi, List.flatMap_append,
      List.flatMap_append, htrailing, hnone]
    exact .cons (.inr ⟨rfl, rfl⟩) (.cons (.inl rfl) (ih (by rintro w ⟨⟩)))

/-! ## Comments -/

/-- What an item is made of has its comments. -/
theorem commentsAmong_parts {items : List Item}
    (h : ∀ i ∈ items, i.isComment = true → i.comment = none) :
    Node.commentsAmong (items.flatMap Item.parts) = Item.comments items := by
  induction items with
  | nil => rfl
  | cons i items ih =>
    obtain ⟨hi, hrest⟩ := List.forall_mem_cons.mp h
    have hparts : Node.commentsAmong i.parts = i.commentTexts := by
      have hbehind : Node.commentsAmong (i.comment.toList.map .comment) = i.comment.toList := by
        cases i.comment <;> rfl
      have hfront : ∀ ns, Node.commentsAmong (i.marker.toList.map .atom ++ ns) =
          Node.commentsAmong ns := by
        cases i.marker <;> exact fun _ => rfl
      rw [Item.parts, hfront]
      cases hc : i.isComment with
      | true =>
        obtain ⟨text, htext⟩ := Node.eq_comment hc
        rw [htext, Node.commentsAmong_cons_comment, hbehind, hi hc, Item.commentTexts, if_pos hc,
          htext]
        rfl
      | false => rw [Node.commentsAmong_cons hc, hbehind, Item.commentTexts_of_not hc]
    have happend : Node.commentsAmong (i.parts ++ items.flatMap Item.parts) =
        Node.commentsAmong i.parts ++ Node.commentsAmong (items.flatMap Item.parts) :=
      List.filterMap_append
    rw [List.flatMap_cons, happend, hparts, ih hrest, Item.comments_cons]

/-- A key has no comment, so a record's comments are those of its items. -/
theorem comments_itemsAll {records : List Record} (h : ∀ r ∈ records, r.WellFormed) :
    Item.comments (itemsAll records) = records.flatMap comments := by
  have hone : ∀ r : Record, r.WellFormed → Item.comments r.items = r.comments := by
    intro r hr
    cases r with
    | comment text => rfl
    | orphan i =>
      simp [items, comments, Item.commentTexts_of_not hr]
    | pair key value =>
      obtain ⟨hkey, hnone, hvalue⟩ := hr
      simp [items, comments, Item.commentTexts_of_not hkey, Item.commentTexts_of_not hvalue, hnone]
  induction records with
  | nil => rfl
  | cons r records ih =>
    obtain ⟨hr, hrest⟩ := List.forall_mem_cons.mp h
    rw [itemsAll_cons, Item.comments_append, hone r hr, ih hrest, List.flatMap_cons]

/-! ## Orphans -/

/-- A pair holds two elements, and the one orphan there may be holds one. -/
theorem Paired.countP_orphan {records : List Record} (h : Paired records) :
    records.countP isOrphan = (records.flatMap places).length % 2 := by
  induction records with
  | nil => rfl
  | cons r records ih =>
    cases r with
    | comment text => exact ih h.2
    | pair key value =>
      have hrest := ih h.2
      simp only [List.countP_cons, List.flatMap_cons, isOrphan, places, List.length_append,
        List.length_cons, List.length_nil, Bool.false_eq_true, if_false]
      omega
    | orphan i =>
      have hnone : records.countP isOrphan = 0 ∧ records.flatMap places = [] := by
        refine ⟨List.countP_eq_zero.mpr fun r hr => ?_, List.flatMap_eq_nil_iff.mpr fun r hr => ?_⟩
        all_goals
          obtain ⟨text, rfl⟩ := h.2 r hr
          simp [isOrphan, places]
      rw [List.countP_cons, List.flatMap_cons, hnone.1, hnone.2]
      rfl

/-- Behind an orphan only comments stand. -/
theorem Paired.behind_orphan {front behind : List Record} {i : Item}
    (h : Paired (front ++ .orphan i :: behind)) : ∀ r ∈ behind, r.isComment = true := by
  induction front with
  | nil =>
    intro r hr
    obtain ⟨text, rfl⟩ := h.2 r hr
    rfl
  | cons s front ih =>
    cases s with
    | comment => exact ih h.2
    | pair => exact ih h.2
    | orphan j =>
      -- The orphan would stand behind another one, where only comments do.
      obtain ⟨text, htext⟩ := h.2 (.orphan i) (by simp)
      cases htext

/-! ## Pairing -/

/-- **Pairing is greedy and loses nothing.** -/
theorem pairsUp_ofItems {items : List Item}
    (h : ∀ i ∈ items, i.isComment = true → i.comment = none) :
    PairsUp items (ofItems items) := by
  have hpaired := paired_ofItems items
  have helements := keeps_pairFrom items none nofun
  refine ⟨helements, ?comments, ?keys, ?orphans, ?last⟩
  case comments =>
    rw [← comments_itemsAll hpaired.wellFormed, comments_ofItems, commentsAmong_parts h]
  case keys =>
    intro key value hmem
    exact (hpaired.wellFormed _ hmem).2.1
  case orphans =>
    rw [hpaired.countP_orphan]
    exact congrArg (· % 2) helements.length_eq
  case last =>
    intro front item behind hrecords
    rw [hrecords] at hpaired
    exact hpaired.behind_orphan

/-- A comment in front, a key with a comment and another one in front of its value, which has one
    too, and an orphan with comments. -/
theorem pairsUp_ofItems_orphan :
    ∃ items : List Item, items = [⟨.comment ";a", none, none⟩, ⟨.atom "k", none, some ";b"⟩,
        ⟨.comment ";c", none, none⟩, ⟨.atom "v", some "&", some ";d"⟩,
        ⟨.atom "l", none, some ";e"⟩, ⟨.comment ";f", none, none⟩] ∧
      (∀ i ∈ items, i.isComment = true → i.comment = none) ∧ PairsUp items (ofItems items) :=
  ⟨_, rfl, by decide, pairsUp_ofItems (by decide)⟩

/-- The comments of a key and behind it stay in front of its pair. -/
example :
    ofItems [⟨.atom "k", none, some ";b"⟩, ⟨.comment ";c", none, none⟩, ⟨.atom "v", none, none⟩] =
      [.comment ";b", .comment ";c", .pair ⟨.atom "k", none, none⟩ ⟨.atom "v", none, none⟩] := by
  decide

/-- **Pairing again.**  Records that are written out as items are paired the same way. -/
theorem ofItems_itemsAll_ofItems (items : List Item) :
    ofItems (itemsAll (ofItems items)) = ofItems items :=
  ofItems_itemsAll (paired_ofItems items)

end Record

end CljTidy
