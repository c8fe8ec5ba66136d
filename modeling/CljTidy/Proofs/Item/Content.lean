/-
  What items hold.

  Items hold elements with their markers, in order (`Item.cores`), and comments, on lines of their
  own or trailing (`Item.comments`).  Pairing items keeps both, although it moves comments in front
  of pairs, and pairing what was paired changes nothing (`ofItems_itemsAll`).
-/
import CljTidy.Item.Group
import CljTidy.Record

namespace CljTidy

/-- What comes with each of two parts may as well stand behind both. -/
theorem perm_exchange {α : Type} (as bs cs ds : List α) :
    (as ++ bs ++ (cs ++ ds)).Perm (as ++ cs ++ (bs ++ ds)) := by
  rw [List.append_assoc, List.append_assoc]
  exact (List.perm_append_comm_assoc bs cs ds).append_left as

namespace Item

/-- The comments of an item: itself, or the one behind it. -/
def commentTexts (i : Item) : List String :=
  if i.isComment then [i.element.text] else i.comment.toList

/-- The item ends with a comment, so nothing may follow on its line. -/
def closesLine (i : Item) : Bool := i.isComment || i.comment.isSome

/-- The last item is an element without a comment behind it. -/
def EndsOpen (items : List Item) : Prop := ∃ i ∈ items.getLast?, i.closesLine = false

/-- The comments of items, in order. -/
def comments (items : List Item) : List String := items.flatMap commentTexts

/-- The element of an item with its marker. -/
def core (i : Item) : Node × Option String := (i.element, i.marker)

/-- The elements of items with their markers, in order. -/
def cores (items : List Item) : List (Node × Option String) := (elements items).map core

/-- An item without a trailing comment is bare. -/
theorem bare_eq {i : Item} (h : i.comment = none) : i.bare = i := by
  unfold bare
  rw [← h]

@[simp] theorem comments_nil : comments [] = [] := rfl

@[simp] theorem comments_cons (i : Item) (items : List Item) :
    comments (i :: items) = i.commentTexts ++ comments items := rfl

/-- Comments go item by item. -/
@[simp] theorem comments_append (xs ys : List Item) :
    comments (xs ++ ys) = comments xs ++ comments ys := by
  simp [comments]

@[simp] theorem cores_nil : cores [] = [] := rfl

/-- A comment is no element. -/
theorem cores_cons_comment {i : Item} (h : i.isComment = true) (items : List Item) :
    cores (i :: items) = cores items := by
  simp [cores, elements, h]

/-- An element counts with its marker. -/
theorem cores_cons_element {i : Item} (h : i.isComment = false) (items : List Item) :
    cores (i :: items) = i.core :: cores items := by
  simp [cores, elements, h]

/-- Elements go item by item. -/
@[simp] theorem cores_append (xs ys : List Item) : cores (xs ++ ys) = cores xs ++ cores ys := by
  simp [cores, elements]

/-- Items that are kept last one first have their elements last one first. -/
theorem cores_reverse (items : List Item) : cores items.reverse = (cores items).reverse := by
  simp [cores, elements]

/-- Every element belongs to an item that is not a comment, -/
theorem mem_cores {items : List Item} {c : Node × Option String} (h : c ∈ cores items) :
    ∃ i ∈ items, i.isComment = false ∧ i.core = c := by
  obtain ⟨i, hi, rfl⟩ := List.mem_map.mp h
  obtain ⟨hmem, hnot⟩ := List.mem_filter.mp hi
  exact ⟨i, hmem, by simpa using hnot, rfl⟩

/-- and every item that is not a comment has one. -/
theorem core_mem {items : List Item} {i : Item} (hi : i ∈ items) (hnot : i.isComment = false) :
    i.core ∈ cores items :=
  List.mem_map_of_mem (List.mem_filter.mpr ⟨hi, by simp [hnot]⟩)

/-- Comments hold no element. -/
theorem cores_eq_nil_of_comments {items : List Item} (h : ∀ i ∈ items, i.isComment = true) :
    cores items = [] := by
  induction items with
  | nil => rfl
  | cons i items ih =>
    rw [cores_cons_comment (h i (List.mem_cons_self ..))]
    exact ih fun j hj => h j (List.mem_cons_of_mem _ hj)

/-- With no items there is nothing to end. -/
theorem not_endsOpen_nil : ¬ EndsOpen [] := by simp [EndsOpen]

/-- Only the last part matters. -/
theorem endsOpen_append {xs ys : List Item} (h : ys ≠ []) : EndsOpen (xs ++ ys) ↔ EndsOpen ys := by
  have hlast : (xs ++ ys).getLast? = ys.getLast? := by
    cases hy : ys.getLast? with
    | none => exact absurd (List.getLast?_eq_none_iff.mp hy) h
    | some i => simp [List.getLast?_append, hy]
  simp [EndsOpen, hlast]

/-- A single item ends open if nothing behind it closes the line. -/
theorem endsOpen_singleton {i : Item} : EndsOpen [i] ↔ i.closesLine = false := by
  simp [EndsOpen]

/-- What ends open is not empty, -/
theorem EndsOpen.ne_nil {items : List Item} (h : EndsOpen items) : items ≠ [] := by
  rintro rfl
  exact not_endsOpen_nil h

/-- and has an element, the last one. -/
theorem EndsOpen.cores_ne_nil {items : List Item} (h : EndsOpen items) : cores items ≠ [] := by
  obtain ⟨i, hi, hopen⟩ := h
  have hnot : i.isComment = false := (Bool.or_eq_false_iff.mp hopen).1
  have hmem : i.core ∈ cores items := core_mem (List.mem_of_getLast? hi) hnot
  exact List.ne_nil_of_mem hmem

/-- Behind an item that closes its line, the end is open only if something follows. -/
theorem EndsOpen.of_closes {xs items : List Item} {i : Item} (h : EndsOpen (xs ++ i :: items))
    (hi : i.closesLine = true) : EndsOpen items := by
  rw [endsOpen_append (by simp)] at h
  cases items with
  | nil =>
    rw [endsOpen_singleton, hi] at h
    cases h
  | cons j items =>
    rw [← List.singleton_append, endsOpen_append (by simp)] at h
    exact h

/-- The comments in front of the head, the head, and the items behind it, are the items. -/
theorem splitHead_spec {items leading rest : List Item} {head : Option Item}
    (h : splitHead items = (leading, head, rest)) :
    (∀ i ∈ leading, i.isComment = true) ∧ (∀ i ∈ head, i.isComment = false) ∧
      items = leading ++ (head.toList ++ rest) ∧ (head = none → rest = []) := by
  simp only [splitHead, Prod.mk.injEq] at h
  obtain ⟨rfl, rfl, rfl⟩ := h
  refine ⟨fun i hi => List.all_eq_true.mp List.all_takeWhile i hi, ?_, ?_, ?_⟩
  · induction items with
    | nil => intro i hi; cases hi
    | cons j items ih =>
      cases hj : j.isComment with
      | true => simpa [hj] using ih
      | false =>
        intro i hi
        obtain rfl : j = i := by simpa [hj] using hi
        exact hj
  · conv => lhs; rw [← List.takeWhile_append_dropWhile (p := isComment) (l := items)]
    cases items.dropWhile isComment <;> simp
  · intro hnone
    cases hd : items.dropWhile isComment with
    | nil => rfl
    | cons j js => rw [hd] at hnone; cases hnone

end Item

/-! ## Pairing -/

namespace Record

/-- The items of records in a row. -/
def itemsAll (records : List Record) : List Item := records.flatMap items

@[simp] theorem itemsAll_nil : itemsAll [] = [] := rfl

@[simp] theorem itemsAll_cons (r : Record) (records : List Record) :
    itemsAll (r :: records) = r.items ++ itemsAll records := rfl

/-- Items of records in a row go record by record. -/
@[simp] theorem itemsAll_append (xs ys : List Record) :
    itemsAll (xs ++ ys) = itemsAll xs ++ itemsAll ys := by
  simp [itemsAll]

/-- A comment item is the item of its record. -/
theorem items_comment (text : String) :
    Item.cores (comment text).items = [] ∧ Item.comments (comment text).items = [text] :=
  ⟨rfl, rfl⟩

/-- A trailing comment becomes a record of its own, with no element. -/
theorem itemsAll_trailing (i : Item) :
    Item.cores (itemsAll (trailing i)) = [] ∧
      Item.comments (itemsAll (trailing i)) = i.comment.toList := by
  unfold trailing
  cases i.comment <;> exact ⟨rfl, rfl⟩

/-- What waits for a value: the key, and the comments behind it as records. -/
def waitingItems : Option (Item × List Record) → List Item
  | none => []
  | some (key, held) => key :: itemsAll held

/-- A key that waits is not a comment, and what it holds is comments. -/
def Waits (waiting : Option (Item × List Record)) : Prop :=
  ∀ w ∈ waiting, w.1.isComment = false ∧ Item.cores (itemsAll w.2) = []

/-- **Pairing keeps everything.**  Elements and comments of the records are those of the items. -/
theorem content_pairFrom (items : List Item) (waiting : Option (Item × List Record))
    (h : Waits waiting) :
    Item.cores (itemsAll (pairFrom waiting items)) = Item.cores (waitingItems waiting ++ items) ∧
      Item.comments (itemsAll (pairFrom waiting items)) =
        Item.comments (waitingItems waiting ++ items) := by
  fun_induction pairFrom waiting items with
  | case1 => exact ⟨rfl, rfl⟩
  | case2 key held => simp [waitingItems, items]
  -- A comment is a record, and nothing waits.
  | case3 i items hi ih =>
    obtain ⟨hcores, hcomments⟩ := ih (by simp [Waits])
    obtain ⟨hc, ht⟩ := items_comment i.element.text
    simp only [waitingItems, List.nil_append] at hcores hcomments ⊢
    simp only [itemsAll_cons, Item.cores_append, Item.comments_append, hc, ht, hcores, hcomments,
      Item.cores_cons_comment hi, Item.comments_cons, Item.commentTexts, hi]
    exact ⟨rfl, rfl⟩
  -- An element waits for its value.
  | case4 i items hi ih =>
    exact ih (by simpa [Waits] using hi)
  -- A comment is held behind the key that waits.
  | case5 key held i items hi ih =>
    obtain ⟨hkey, hheld⟩ := h _ rfl
    obtain ⟨hc, ht⟩ := items_comment i.element.text
    obtain ⟨hcores, hcomments⟩ := ih (by simp [Waits, hkey, hheld, hc])
    rw [hcores, hcomments]
    simp [waitingItems, Item.cores_cons_element hkey, hc, ht, Item.cores_cons_comment hi,
      Item.commentTexts, hi]
  -- The comment of the key goes in front of the pair with those that were held.
  | case6 key held i items hi ih =>
    obtain ⟨hkey, hheld⟩ := h _ rfl
    obtain ⟨hc, ht⟩ := itemsAll_trailing key
    obtain ⟨hcores, hcomments⟩ := ih (by simp [Waits])
    have hi : i.isComment = false := Bool.eq_false_iff.mpr hi
    have hbare : key.bare.isComment = false := hkey
    simp only [waitingItems, List.nil_append] at hcores hcomments
    have hcore : key.bare.core = key.core := rfl
    have htext : key.bare.commentTexts = [] ∧ key.commentTexts = key.comment.toList := by
      unfold Item.commentTexts
      rw [if_neg (Bool.eq_false_iff.mp hbare), if_neg (Bool.eq_false_iff.mp hkey)]
      exact ⟨rfl, rfl⟩
    constructor
    · simp [waitingItems, hc, hheld, hcores, Record.items, Item.cores_cons_element hkey,
        Item.cores_cons_element hbare, Item.cores_cons_element hi, hcore]
    · simp [waitingItems, ht, hcomments, Record.items, htext.1, htext.2]

/-- The elements of all records, from the start; -/
theorem cores_ofItems (items : List Item) :
    Item.cores (itemsAll (ofItems items)) = Item.cores items :=
  (content_pairFrom items none (by simp [Waits])).1

/-- and the comments. -/
theorem comments_ofItems (items : List Item) :
    Item.comments (itemsAll (ofItems items)) = Item.comments items :=
  (content_pairFrom items none (by simp [Waits])).2

/-- What ends with an element still does when paired. -/
theorem endsOpen_pairFrom (items : List Item) (waiting : Option (Item × List Record))
    (h : Item.EndsOpen (waitingItems waiting ++ items)) :
    Item.EndsOpen (itemsAll (pairFrom waiting items)) := by
  fun_induction pairFrom waiting items with
  | case1 => exact absurd h Item.not_endsOpen_nil
  | case2 key held => simpa [waitingItems, items] using h
  -- A comment closes its line, so the end is behind it.
  | case3 i items hi ih =>
    have hall : Item.EndsOpen ([] ++ i :: items) := h
    have hrest : Item.EndsOpen items := hall.of_closes (by simp [Item.closesLine, hi])
    have hpairs := ih hrest
    rw [itemsAll_cons, Item.endsOpen_append hpairs.ne_nil]
    exact hpairs
  | case4 i items hi ih => exact ih h
  | case5 key held i items hi ih =>
    have hrest : Item.EndsOpen items := h.of_closes (by simp [Item.closesLine, hi])
    refine ih ?_
    rw [Item.endsOpen_append hrest.ne_nil]
    exact hrest
  -- The pair is the end if nothing follows its value.
  | case6 key held i items hi ih =>
    rw [Item.endsOpen_append (by simp)] at h
    rw [itemsAll_append, Item.endsOpen_append (by simp [Record.items]), itemsAll_cons]
    cases items with
    | nil =>
      have hi := Item.endsOpen_singleton.mp h
      simpa [Record.items, pairFrom, Item.EndsOpen] using hi
    | cons j items =>
      rw [← List.singleton_append, Item.endsOpen_append (by simp)] at h
      have hpairs := ih h
      rw [Item.endsOpen_append hpairs.ne_nil]
      exact hpairs

/-- From the start no key waits. -/
theorem endsOpen_ofItems {items : List Item} (h : Item.EndsOpen items) :
    Item.EndsOpen (itemsAll (ofItems items)) := endsOpen_pairFrom items none h

section

variable {P : Item → Prop} (hbare : ∀ i : Item, i.isComment = false → P i → P i.bare)
  (hcomment : ∀ i : Item, P i → ∀ text ∈ i.commentTexts, P ⟨.comment text, none, none⟩)

include hbare hcomment

/-- Induction follows pairing, with the property asked of the key that waits and of what it holds.
    -/
theorem forall_pairFrom (items : List Item) (waiting : Option (Item × List Record))
    (hitems : ∀ i ∈ items, P i)
    (hwaiting : ∀ w ∈ waiting, w.1.isComment = false ∧ P w.1 ∧ ∀ i ∈ itemsAll w.2, P i) :
    ∀ i ∈ itemsAll (pairFrom waiting items), P i := by
  have hown : ∀ j : Item, j.isComment = true → P j → P ⟨.comment j.element.text, none, none⟩ :=
    fun j hj hp => hcomment j hp _ (by simp [Item.commentTexts, hj])
  fun_induction pairFrom waiting items with
  | case1 => rintro i ⟨⟩
  | case2 key held =>
    intro i hi
    rcases List.mem_cons.mp hi with rfl | hi
    · exact (hwaiting _ rfl).2.1
    · exact (hwaiting _ rfl).2.2 i hi
  | case3 j items hj ih =>
    intro i hi
    rcases List.mem_cons.mp hi with rfl | hi
    · exact hown j hj (hitems j (List.mem_cons_self ..))
    · exact ih (fun k hk => hitems k (List.mem_cons_of_mem _ hk)) (by simp) i hi
  -- The element goes on to wait as a key.
  | case4 j items hj ih =>
    refine ih (fun k hk => hitems k (List.mem_cons_of_mem _ hk)) ?_
    rintro w ⟨⟩
    exact ⟨Bool.eq_false_iff.mpr hj, hitems j (List.mem_cons_self ..), by simp⟩
  -- The comment is held with those before it.
  | case5 key held j items hj ih =>
    refine ih (fun k hk => hitems k (List.mem_cons_of_mem _ hk)) ?_
    rintro w ⟨⟩
    refine ⟨(hwaiting _ rfl).1, (hwaiting _ rfl).2.1, fun i hi => ?_⟩
    rw [itemsAll_append] at hi
    rcases List.mem_append.mp hi with hi | hi
    · exact (hwaiting _ rfl).2.2 i hi
    · rw [List.mem_singleton.mp hi]
      exact hown j hj (hitems j (List.mem_cons_self ..))
  -- The comments of the key come first, its own one and those held; then key and value.
  | case6 key held j items hj ih =>
    obtain ⟨hkey, hp, hheld⟩ := hwaiting _ rfl
    intro i hi
    simp only [itemsAll_append, itemsAll_cons, Record.items, List.mem_append, List.mem_cons,
      List.not_mem_nil, or_false] at hi
    rcases hi with (hi | hi) | (rfl | rfl) | hi
    · unfold trailing at hi
      cases hc : key.comment with
      | none => rw [hc] at hi; cases hi
      | some text =>
        rw [hc] at hi
        rw [List.mem_singleton.mp hi]
        exact hcomment key hp text (by simp [Item.commentTexts, hkey, hc])
    · exact hheld i hi
    · exact hbare key hkey hp
    · exact hitems _ (List.mem_cons_self ..)
    · exact ih (fun k hk => hitems k (List.mem_cons_of_mem _ hk)) (by simp) i hi

/-- Pairing makes items bare and comments items of their own, and nothing else. -/
theorem forall_ofItems {items : List Item} (h : ∀ i ∈ items, P i) :
    ∀ i ∈ itemsAll (ofItems items), P i :=
  forall_pairFrom hbare hcomment items none h (by simp)

end

/-- No items make no records. -/
theorem ofItems_eq_nil {items : List Item} (h : items = []) : ofItems items = [] := by
  subst h
  rfl

/-! ## Well-formed records -/

/-- A pair is made of two elements, and its key has no trailing comment; an orphan is an element. -/
def WellFormed : Record → Prop
  | pair key value => key.isComment = false ∧ key.comment = none ∧ value.isComment = false
  | orphan i => i.isComment = false
  | comment _ => True

/-- The records are as pairing makes them: well formed, and behind an orphan only comments. -/
def Paired : List Record → Prop
  | [] => True
  | orphan i :: records => (orphan i).WellFormed ∧ ∀ r ∈ records, ∃ text, r = comment text
  | r :: records => r.WellFormed ∧ Paired records

/-- Comments in front change nothing. -/
theorem paired_append {texts records : List Record} (h : ∀ r ∈ texts, ∃ text, r = comment text)
    (hr : Paired records) : Paired (texts ++ records) := by
  induction texts with
  | nil => exact hr
  | cons r texts ih =>
    obtain ⟨text, rfl⟩ := h r (List.mem_cons_self ..)
    exact ⟨trivial, ih fun s hs => h s (List.mem_cons_of_mem _ hs)⟩

/-- Records as pairing makes them are well formed. -/
theorem Paired.wellFormed {records : List Record} (h : Paired records) :
    ∀ r ∈ records, r.WellFormed := by
  induction records with
  | nil => rintro r ⟨⟩
  | cons s records ih =>
    intro r hr
    cases s with
    | orphan i =>
      rcases List.mem_cons.mp hr with rfl | hr
      · exact h.1
      · obtain ⟨text, rfl⟩ := h.2 r hr
        trivial
    | _ =>
      rcases List.mem_cons.mp hr with rfl | hr
      · exact h.1
      · exact ih h.2 r hr

/-- Pairing makes such records if nothing but comments is held behind the key that waits. -/
theorem paired_pairFrom (items : List Item) (waiting : Option (Item × List Record))
    (h : ∀ w ∈ waiting, w.1.isComment = false ∧ ∀ r ∈ w.2, ∃ text, r = comment text) :
    Paired (pairFrom waiting items) := by
  fun_induction pairFrom waiting items with
  | case1 => trivial
  | case2 key held => exact h _ rfl
  | case3 i items hi ih => exact ⟨trivial, ih (by simp)⟩
  | case4 i items hi ih => exact ih (by simpa using hi)
  | case5 key held i items hi ih =>
    refine ih ?_
    rintro w ⟨⟩
    refine ⟨(h _ rfl).1, fun r hr => ?_⟩
    rcases List.mem_append.mp hr with hr | hr
    · exact (h _ rfl).2 r hr
    · exact ⟨_, List.mem_singleton.mp hr⟩
  | case6 key held i items hi ih =>
    refine paired_append (fun r hr => ?_)
      ⟨⟨(h _ rfl).1, rfl, Bool.eq_false_iff.mpr hi⟩, ih (by simp)⟩
    rcases List.mem_append.mp hr with hr | hr
    · obtain ⟨text, -, rfl⟩ := Option.map_eq_some_iff.mp (Option.mem_toList.mp hr)
      exact ⟨text, rfl⟩
    · exact (h _ rfl).2 r hr

/-- From the start nothing is held, -/
theorem paired_ofItems (items : List Item) : Paired (ofItems items) :=
  paired_pairFrom items none (by simp)

/-- so the records of items are well formed. -/
theorem wellFormed_ofItems (items : List Item) : ∀ r ∈ ofItems items, r.WellFormed :=
  (paired_ofItems items).wellFormed

/-- Comments behind a key that waits are held. -/
theorem pairFrom_comments (key : Item) (held : List Record) {records : List Record}
    (h : ∀ r ∈ records, ∃ text, r = comment text) :
    pairFrom (some (key, held)) (itemsAll records) = orphan key :: (held ++ records) := by
  induction records generalizing held with
  | nil => simp [pairFrom]
  | cons r records ih =>
    obtain ⟨text, rfl⟩ := h r (List.mem_cons_self ..)
    show pairFrom (some (key, held ++ [comment text])) (itemsAll records) = _
    rw [ih (held ++ [comment text]) fun s hs => h s (List.mem_cons_of_mem _ hs)]
    simp

/-- **Pairing again.**  Records as pairing makes them are the records of their items. -/
theorem ofItems_itemsAll {records : List Record} (h : Paired records) :
    ofItems (itemsAll records) = records := by
  induction records with
  | nil => rfl
  | cons r records ih =>
    cases r with
    | comment text => exact congrArg (comment text :: ·) (ih h.2)
    | orphan i =>
      obtain ⟨hi, hcomments⟩ := h
      show pairFrom none (i :: itemsAll records) = _
      rw [pairFrom, if_neg (Bool.eq_false_iff.mp hi), pairFrom_comments i [] hcomments]
      rfl
    | pair key value =>
      obtain ⟨⟨hkey, hnone, hvalue⟩, hrest⟩ := h
      show pairFrom none (key :: value :: itemsAll records) = _
      rw [pairFrom, if_neg (Bool.eq_false_iff.mp hkey), pairFrom,
        if_neg (Bool.eq_false_iff.mp hvalue), trailing, hnone, Item.bare_eq hnone]
      exact congrArg (pair key value :: ·) (ih hrest)

end Record

end CljTidy
