/-
  What grouping keeps.

  `step_cases` says what one child does to the items so far.  From it: the comments of the items are
  those among the children, in order (`comments_group`); a property of the children that discards
  neither need nor break holds of the elements (`made_group`); and unless discards are stacked, the
  elements with their markers are the forms among the children, in order (`holdings_group`).
-/
import CljTidy.Proofs.Item.Content
import CljTidy.Proofs.Node.Face

namespace CljTidy

/-! ## One child -/

/-- What a child does to the items so far. -/
theorem Grouping.step_cases (g : Grouping) (c : Node) :
    (c.isNoise = true ∧ g.step c = { g with lineBroken := g.lineBroken || c.isNewline }) ∨
    (∃ text, c = .comment text ∧ g.step c = g.flushMarker.addComment text) ∨
    (c = .atom "&" ∧ g.marker = none ∧
      g.step c = { g with marker := some "&", lineBroken := false }) ∨
    (c.isForm = true ∧ (c = .atom "&" → g.marker ≠ none) ∧ g.step c = g.addElement c) := by
  rcases c with ⟨_ | _ | _ | _ | _, text⟩ | _ | _ | _ | _
  · exact .inl ⟨rfl, by simp [step, Node.isNewline]⟩
  · exact .inl ⟨rfl, by simp [step, Node.isNewline]⟩
  · exact .inl ⟨rfl, by simp [step, Node.isNewline]⟩
  · exact .inr (.inl ⟨text, rfl, rfl⟩)
  · by_cases h : text = "&" ∧ g.marker = none
    · refine .inr (.inr (.inl ⟨by rw [h.1], h.2, ?_⟩))
      obtain ⟨rfl, hm⟩ := h
      simp [step, hm]
    · refine .inr (.inr (.inr ⟨rfl, ?_, ?_⟩))
      · intro heq hm
        injection heq with _ htext
        exact h ⟨htext, hm⟩
      · simp only [step, if_neg h]
  · exact .inr (.inr (.inr ⟨rfl, by rintro ⟨⟩, rfl⟩))
  · exact .inr (.inr (.inr ⟨rfl, by rintro ⟨⟩, rfl⟩))
  · exact .inr (.inr (.inr ⟨rfl, by rintro ⟨⟩, rfl⟩))
  · exact .inr (.inr (.inr ⟨rfl, by rintro ⟨⟩, rfl⟩))

/-- An `&` that is put behind the items does not wait any more. -/
theorem Grouping.marker_flush (g : Grouping) : g.flushMarker.marker = none := by
  unfold Grouping.flushMarker
  split
  · rfl
  · assumption

/-- A comment leaves the `&` that waits where it is. -/
theorem Grouping.marker_addComment (g : Grouping) (text : String) :
    (g.addComment text).marker = g.marker := by
  unfold Grouping.addComment
  repeat' split
  all_goals rfl

/-- What holds before the first child and is kept by each holds behind the last. -/
theorem Grouping.foldl_induction {I : Grouping → Prop} {children : List Node} (hstart : I {})
    (hstep : ∀ g, ∀ c ∈ children, I g → I (g.step c)) : I (children.foldl Grouping.step {}) := by
  suffices h : ∀ (cs : List Node) (g : Grouping), (∀ c ∈ cs, c ∈ children) → I g →
      I (cs.foldl Grouping.step g) from h children {} (fun _ h => h) hstart
  intro cs
  induction cs with
  | nil => exact fun g _ hg => hg
  | cons c cs ih =>
    intro g hmem hg
    exact ih _ (fun d hd => hmem d (List.mem_cons_of_mem _ hd))
      (hstep g c (hmem c (List.mem_cons_self ..)) hg)

/-- Trivia adds nothing; a line feed is remembered, for a comment behind it does not trail. -/
theorem Grouping.step_noise {n : Node} (h : n.isNoise = true) (g : Grouping) :
    g.step n = { g with lineBroken := g.lineBroken || n.isNewline } := by
  rcases g.step_cases n with ⟨-, hs⟩ | ⟨text, rfl, -⟩ | ⟨rfl, -, -⟩ | ⟨hform, -, -⟩
  · exact hs
  · cases h
  · cases h
  · rw [(Node.isForm_iff.mp hform).1] at h
    cases h

/-- A form is an element, unless it is an `&` and none is waiting. -/
theorem Grouping.step_element {n : Node} (h : n.isForm = true) {g : Grouping}
    (hmarker : n = .atom "&" → g.marker ≠ none) : g.step n = g.addElement n := by
  rcases g.step_cases n with ⟨hn, -⟩ | ⟨text, rfl, -⟩ | ⟨rfl, hm, -⟩ | ⟨-, -, hs⟩
  · rw [(Node.isForm_iff.mp h).1] at hn
    cases hn
  · cases h
  · exact absurd hm (hmarker rfl)
  · exact hs

/-! ## Discards -/

namespace Node

/-- Only discards are discards. -/
theorem discardDepth_eq_zero {n : Node} (h : ∀ m, n = .discard m → False) : n.discardDepth = 0 := by
  unfold discardDepth
  split
  · exact (h _ rfl).elim
  · rfl

/-- A form under discards is a form, -/
theorem isForm_discardTimes {n : Node} (h : n.isForm = true) (k : Nat) :
    (n.discardTimes k).isForm = true := by
  cases k with
  | zero => exact h
  | succ k => rfl

/-- The element that `addElement` makes of a form. -/
def spread (depth : Nat) (n : Node) : Node := if depth = 0 then n else .discard n.discarded

/-- and so is what becomes of it when discards are spread, -/
theorem isForm_spread {n : Node} (h : n.isForm = true) (depth : Nat) :
    (spread depth n).isForm = true := by
  unfold spread
  split
  · exact h
  · rfl

/-- which is never a comment. -/
theorem isComment_spread {n : Node} (h : n.isForm = true) (depth : Nat) :
    (spread depth n).isComment = false :=
  (isForm_iff.mp (isForm_spread h depth)).2

section

variable {P : Node → Prop} (hadd : ∀ n, n.isForm = true → P n → P (.discard n))
  (hdrop : ∀ n, P (.discard n) → n.isForm = true ∧ P n)

include hdrop in
/-- What is under all the discards has every property of the node that does not depend on them. -/
theorem discarded_of {n : Node} (hform : n.isForm = true) (h : P n) :
    n.discarded.isForm = true ∧ P n.discarded := by
  induction n using discarded.induct with
  | case1 child ih => exact ih (hdrop child h).1 (hdrop child h).2
  | case2 n hn => rw [discarded]; exact ⟨hform, h⟩; exact hn

include hadd hdrop in
/-- So has the element that the node becomes, -/
theorem spread_of {n : Node} (hform : n.isForm = true) (h : P n) (depth : Nat) :
    P (spread depth n) := by
  unfold spread
  split
  · exact h
  · obtain ⟨hf, hp⟩ := discarded_of hdrop hform h
    exact hadd _ hf hp

include hadd in
/-- and the node under any number of discards. -/
theorem discardTimes_of {n : Node} (hform : n.isForm = true) (h : P n) (k : Nat) :
    P (n.discardTimes k) := by
  induction k with
  | zero => exact h
  | succ k ih => exact hadd _ (isForm_discardTimes hform k) ih

end

end Node

/-- The element that a form becomes: it takes one of the discards that wait. -/
def Grouping.taken (g : Grouping) (n : Node) : Node :=
  Node.spread (n.discardDepth + if g.owed = 0 then 0 else 1) n

/-- An element is the last one, with the `&` that waited. -/
theorem Grouping.cores_addElement (g : Grouping) {n : Node} (h : n.isForm = true) :
    Item.cores (g.addElement n).items = (g.taken n, g.marker) :: Item.cores g.items := by
  have hitem : (⟨g.taken n, g.marker, none⟩ : Item).isComment = false := Node.isComment_spread h _
  exact Item.cores_cons_element hitem g.items

/-- Of the discards that wait and those a form brings along, it uses one. -/
theorem Grouping.owed_addElement (g : Grouping) (n : Node) :
    (g.addElement n).owed = g.owed + n.discardDepth - 1 := by
  show g.owed - 1 + (n.discardDepth + (if g.owed = 0 then 0 else 1) - 1) = _
  split <;> omega

/-! ## Items made of children -/

/-- The item is made of a form with property `P`, an `&` at most and comments with property `Q`. -/
inductive Item.Made (P : Node → Prop) (Q : String → Prop) : Item → Prop
  | comment {text : String} (comment : Q text) : Made P Q ⟨.comment text, none, none⟩
  | element {node : Node} {marker comment : Option String} (form : node.isForm = true)
      (made : P node) (marked : marker = none ∨ marker = some "&")
      (trailing : ∀ text ∈ comment, Q text) : Made P Q ⟨node, marker, comment⟩

section

variable {P : Node → Prop} {Q : String → Prop}

/-- A weaker property of the element, or of the comments. -/
theorem Item.Made.imp {P' : Node → Prop} {Q' : String → Prop} {i : Item} (h : i.Made P Q)
    (hp : i.element.isForm = true → P i.element → P' i.element)
    (hq : ∀ text, Q text → Q' text) : i.Made P' Q' := by
  cases h with
  | comment comment => exact .comment (hq _ comment)
  | element form made marked trailing =>
    exact .element form (hp form made) marked fun text htext => hq text (trailing text htext)

/-- Without its trailing comment an item is made as before. -/
theorem Item.Made.bare {i : Item} (h : i.Made P Q) : i.bare.Made P Q := by
  cases h with
  | comment comment => exact .comment comment
  | element form made marked trailing => exact .element form made marked (by simp)

/-- What is so far made of children: the items, and an `&` that waits. -/
def Grouping.Made (P : Node → Prop) (Q : String → Prop) (g : Grouping) : Prop :=
  (∀ i ∈ g.items, i.Made P Q) ∧ (g.marker = none ∨ g.marker = some "&" ∧ P (.atom "&"))

/-- An `&` that is put behind the items is an element made of itself. -/
theorem Grouping.Made.flush {g : Grouping} (h : g.Made P Q) : g.flushMarker.Made P Q := by
  obtain ⟨hitems, hmarker | ⟨hmarker, hp⟩⟩ := h
  · unfold Grouping.flushMarker
    rw [hmarker]
    exact ⟨hitems, .inl hmarker⟩
  · unfold Grouping.flushMarker
    rw [hmarker]
    refine ⟨fun i hi => ?_, .inl rfl⟩
    rcases List.mem_cons.mp hi with rfl | hi
    · exact .element rfl hp (.inl rfl) (by simp)
    · exact hitems i hi

/-- A comment trails the last element or is an item of its own; either way `Q` is asked of its
    text. -/
theorem Grouping.Made.addComment {g : Grouping} (h : g.Made P Q) {text : String} (ht : Q text) :
    (g.addComment text).Made P Q := by
  obtain ⟨items, marker, owed, broken⟩ := g
  obtain ⟨hitems, hmarker⟩ := h
  cases items with
  | nil =>
    refine ⟨fun i hi => ?_, hmarker⟩
    obtain rfl := List.mem_singleton.mp hi
    exact .comment ht
  | cons j items =>
    simp only [Grouping.addComment]
    split
    · rename_i hattach
      refine ⟨fun i hi => ?_, hmarker⟩
      rcases List.mem_cons.mp hi with rfl | hi
      · cases hitems j (List.mem_cons_self ..) with
        | comment => simp [Item.isComment, Node.isComment] at hattach
        | element form made marked trailing =>
          exact .element form made marked (by simpa using ht)
      · exact hitems i (List.mem_cons_of_mem _ hi)
    · refine ⟨fun i hi => ?_, hmarker⟩
      rcases List.mem_cons.mp hi with rfl | hi
      · exact .comment ht
      · exact hitems i hi

/-- One child keeps what is made: trivia adds nothing, and what it adds has the property. -/
theorem Grouping.Made.step
    (hspread : ∀ n depth, n.isForm = true → P n → P (Node.spread depth n)) {g : Grouping}
    (h : g.Made P Q) {c : Node} (hform : c.isForm = true → P c)
    (hcomment : ∀ text, c = .comment text → Q text) : (g.step c).Made P Q := by
  rcases g.step_cases c with ⟨-, hs⟩ | ⟨text, rfl, hs⟩ | ⟨rfl, -, hs⟩ | ⟨hc, -, hs⟩
  · rw [hs]
    exact h
  · rw [hs]
    exact h.flush.addComment (hcomment text rfl)
  · rw [hs]
    exact ⟨h.1, .inr ⟨rfl, hform rfl⟩⟩
  · rw [hs]
    refine ⟨fun i hi => ?_, .inl rfl⟩
    rcases List.mem_cons.mp hi with rfl | hi
    · refine .element (Node.isForm_spread hc _) (hspread c _ hc (hform hc)) ?_ (by simp)
      rcases h.2 with hm | ⟨hm, -⟩
      · exact .inl hm
      · exact .inr hm
    · exact h.1 i hi

/-- Discards that are left over go onto one element, which keeps the property if discards do. -/
theorem made_discardFirst (hadd : ∀ n, n.isForm = true → P n → P (.discard n)) (k : Nat)
    {items : List Item} (h : ∀ i ∈ items, i.Made P Q) :
    ∀ i ∈ Grouping.discardFirst k items, i.Made P Q := by
  induction items with
  | nil => exact h
  | cons j items ih =>
    obtain ⟨hj, hitems⟩ := List.forall_mem_cons.mp h
    unfold Grouping.discardFirst
    split
    · exact List.forall_mem_cons.mpr ⟨hj, ih hitems⟩
    · rename_i hnot
      refine List.forall_mem_cons.mpr ⟨?_, hitems⟩
      cases hj with
      | comment => exact absurd rfl hnot
      | element form made marked trailing =>
        exact .element (Node.isForm_discardTimes form k) (Node.discardTimes_of hadd form made k)
          marked trailing

/-- Items are made of children with a property that spreading and adding discards keep. -/
theorem made_group_of_spread (hadd : ∀ n, n.isForm = true → P n → P (.discard n))
    (hspread : ∀ n depth, n.isForm = true → P n → P (Node.spread depth n)) {children : List Node}
    (hforms : ∀ c ∈ children, c.isForm = true → P c)
    (hcomments : ∀ text, .comment text ∈ children → Q text) :
    ∀ i ∈ Item.group children, i.Made P Q := by
  have hfold : (children.foldl Grouping.step {}).Made P Q := by
    refine Grouping.foldl_induction ⟨by simp, .inl rfl⟩ fun g c hc hg => ?_
    exact hg.step hspread (hforms c hc) fun text htext => hcomments text (htext ▸ hc)
  intro i hi
  exact made_discardFirst hadd _ hfold.flush.1 i (List.mem_reverse.mp hi)

/-- **Items are made of children.** -/
theorem made_group (hadd : ∀ n, n.isForm = true → P n → P (.discard n))
    (hdrop : ∀ n, P (.discard n) → n.isForm = true ∧ P n) {children : List Node}
    (hforms : ∀ c ∈ children, c.isForm = true → P c)
    (hcomments : ∀ text, .comment text ∈ children → Q text) :
    ∀ i ∈ Item.group children, i.Made P Q :=
  made_group_of_spread hadd (fun _ depth hform h => Node.spread_of hadd hdrop hform h depth) hforms
    hcomments

end

/-- Items are made of children of any kind. -/
theorem made_of_group {Q : String → Prop} {children : List Node}
    (hcomments : ∀ text, .comment text ∈ children → Q text) :
    ∀ i ∈ Item.group children, i.Made (fun _ => True) Q :=
  made_group_of_spread (fun _ _ _ => trivial) (fun _ _ _ _ => trivial) (fun _ _ _ => trivial)
    hcomments

/-- What is not a comment is a form. -/
theorem isForm_of_group {children : List Node} {i : Item} (hi : i ∈ Item.group children)
    (hnot : i.isComment = false) : i.element.isForm = true := by
  have hmade : i.Made (fun _ => True) fun _ => True := made_of_group (fun _ _ => trivial) i hi
  cases hmade with
  | comment => cases hnot
  | element form => exact form

/-! ## Content -/

/-- The texts of the comments among nodes. -/
def Node.commentsAmong (cs : List Node) : List String :=
  cs.filterMap fun
    | .comment text => some text
    | _ => none

/-- The first child is a comment, -/
theorem Node.commentsAmong_cons_comment (text : String) (cs : List Node) :
    Node.commentsAmong (.comment text :: cs) = text :: Node.commentsAmong cs := rfl

/-- or it is not. -/
theorem Node.commentsAmong_cons {c : Node} (h : c.isComment = false) (cs : List Node) :
    Node.commentsAmong (c :: cs) = Node.commentsAmong cs := by
  rcases c with ⟨_ | _ | _ | _ | _, text⟩ | _ | _ | _ | _ <;> first | rfl | cases h

section

variable {α : Type} (f : Node → List α)

/-- What an element and its marker hold. -/
def Item.holding (c : Node × Option String) : List α :=
  (c.2.toList.flatMap fun m => f (.atom m)) ++ f c.1

/-- What elements and their markers hold. -/
def Item.holdings (items : List Item) : List α := (Item.cores items).flatMap (Item.holding f)

/-- What the elements so far and a waiting `&` hold. -/
def Grouping.holdings (g : Grouping) : List α :=
  Item.holdings f g.items.reverse ++ g.marker.toList.flatMap fun m => f (.atom m)

/-- What items hold goes item by item. -/
theorem Item.holdings_append (xs ys : List Item) :
    Item.holdings f (xs ++ ys) = Item.holdings f xs ++ Item.holdings f ys := by
  simp [Item.holdings]

/-- A comment holds nothing. -/
theorem Item.holdings_comment {i : Item} (h : i.isComment = true) : Item.holdings f [i] = [] := by
  simp [Item.holdings, Item.cores_cons_comment h]

/-- An element holds what it holds with its marker. -/
theorem Item.holdings_element {i : Item} (h : i.isComment = false) :
    Item.holdings f [i] = Item.holding f i.core := by
  simp [Item.holdings, Item.cores_cons_element h]

/-- Whether an `&` waits or stands behind the items, it is held. -/
theorem Grouping.holdings_flush (g : Grouping) : g.flushMarker.holdings f = g.holdings f := by
  obtain ⟨items, marker, owed, broken⟩ := g
  cases marker with
  | none => rfl
  | some m =>
    have hatom : (⟨.atom m, none, none⟩ : Item).isComment = false := rfl
    simp [Grouping.flushMarker, Grouping.holdings, Item.holdings_append,
      Item.holdings_element f hatom, Item.holding, Item.core]

/-- In the end no `&` waits. -/
theorem Grouping.holdings_flushed (g : Grouping) :
    Item.holdings f g.flushMarker.items.reverse = g.holdings f := by
  rw [← Grouping.holdings_flush, Grouping.holdings, Grouping.marker_flush]
  exact (List.append_nil _).symm

/-- A comment adds no element. -/
theorem Grouping.cores_addComment (g : Grouping) (text : String) :
    Item.cores (g.addComment text).items = Item.cores g.items := by
  obtain ⟨items, marker, owed, broken⟩ := g
  have hcomment : (⟨.comment text, none, none⟩ : Item).isComment = true := rfl
  cases items with
  | nil => rfl
  | cons i items =>
    simp only [Grouping.addComment]
    split
    · rename_i h
      have hi : i.isComment = false := by
        simp only [Bool.and_eq_true, Bool.not_eq_true'] at h
        exact h.1.2
      have hi' : ({ i with comment := some text } : Item).isComment = false := hi
      rw [Item.cores_cons_element hi, Item.cores_cons_element hi']
      rfl
    · exact Item.cores_cons_comment hcomment _

/-- A comment adds nothing to what is held. -/
theorem Grouping.holdings_addComment (g : Grouping) (text : String) :
    (g.addComment text).holdings f = g.holdings f := by
  simp only [Grouping.holdings, Item.holdings, Item.cores_reverse, Grouping.cores_addComment,
    Grouping.marker_addComment]

/-- An element adds what it holds behind the `&` that waited. -/
theorem Grouping.holdings_addElement (g : Grouping) {c : Node} (hc : c.isForm = true) :
    (g.addElement c).holdings f = g.holdings f ++ f (g.taken c) := by
  have hmarker : (g.addElement c).marker = none := rfl
  simp [Grouping.holdings, Item.holdings, Item.cores_reverse, Grouping.cores_addElement g hc,
    Item.holding, hmarker]

/-- The children are not stacked discards. -/
def Unstacked (children : List Node) : Prop := ∀ c ∈ children, c.discardDepth ≤ 1

/-- A form with at most one discard becomes itself. -/
theorem Node.spread_of_depth {n : Node} (h : n.discardDepth ≤ 1) :
    Node.spread n.discardDepth n = n := by
  unfold Node.spread
  split
  · rfl
  · rename_i hne
    -- One discard, and a form without one behind it.
    obtain ⟨child, rfl⟩ : ∃ child, n = .discard child := by
      rcases n with _ | _ | ⟨_ | _, child⟩ | _ | _ <;>
        first | exact ⟨child, rfl⟩ | exact absurd rfl hne
    have hchild : child.discardDepth = 0 := by
      simp only [Node.discardDepth] at h
      omega
    have hsame : child.discarded = child := by
      unfold Node.discarded
      split
      · simp [Node.discardDepth] at hchild
      · rfl
    rw [Node.discarded, hsame]

/-- What does not depend on discards is the same under all of them, -/
theorem Node.discarded_induction {β : Type} (f : Node → β) {n : Node}
    (h : ∀ m, f (.discard m) = f m) : f n.discarded = f n := by
  induction n using Node.discarded.induct with
  | case1 child ih => rw [Node.discarded, ih, h]
  | case2 n hn => rw [Node.discarded]; exact hn

/-- the same for the element that a node becomes, -/
theorem Node.spread_induction {β : Type} (f : Node → β) (h : ∀ m, f (.discard m) = f m)
    (depth : Nat) (n : Node) : f (Node.spread depth n) = f n := by
  unfold Node.spread
  split
  · rfl
  · rw [h, Node.discarded_induction f h]

/-- and the same with more discards in front. -/
theorem Node.discardTimes_induction {β : Type} (f : Node → β) (h : ∀ m, f (.discard m) = f m)
    (n : Node) (k : Nat) : f (n.discardTimes k) = f n := by
  induction k with
  | zero => rfl
  | succ k ih => rw [Node.discardTimes, h, ih]

/-- An element under discards is still an element. -/
theorem Item.isComment_discardTimes {i : Item} (h : i.isComment = false) (k : Nat) :
    ({ i with element := i.element.discardTimes k } : Item).isComment = false := by
  cases k with
  | zero => exact h
  | succ k => rfl

/-- Discards put onto the last element count only if discards do. -/
theorem Grouping.holdings_discardFirst {k : Nat} (h : k = 0 ∨ ∀ m, f (.discard m) = f m)
    (items : List Item) :
    Item.holdings f (Grouping.discardFirst k items).reverse = Item.holdings f items.reverse := by
  induction items with
  | nil => rfl
  | cons i items ih =>
    unfold Grouping.discardFirst
    split
    · simp only [List.reverse_cons, Item.holdings_append, ih]
    · rename_i hi
      have hi : i.isComment = false := Bool.eq_false_iff.mpr hi
      have hi' := Item.isComment_discardTimes hi k
      have hf : f (i.element.discardTimes k) = f i.element := by
        rcases h with rfl | h
        · rfl
        · exact Node.discardTimes_induction f h _ _
      simp only [List.reverse_cons, Item.holdings_append, Item.holdings_element f hi,
        Item.holdings_element f hi', Item.holding, Item.core, hf]

/-- A comment uses no discard. -/
theorem Grouping.owed_addComment (g : Grouping) (text : String) :
    (g.flushMarker.addComment text).owed = g.owed := by
  unfold Grouping.addComment Grouping.flushMarker
  repeat' split
  all_goals rfl

/-- Without stacked discards nothing is left over. -/
theorem Grouping.owed_step {g : Grouping} {c : Node} (hg : g.owed = 0) (hc : c.discardDepth ≤ 1) :
    (g.step c).owed = 0 := by
  rcases g.step_cases c with ⟨-, hs⟩ | ⟨text, rfl, hs⟩ | ⟨rfl, -, hs⟩ | ⟨-, -, hs⟩
  · rw [hs]
    exact hg
  · rw [hs, Grouping.owed_addComment, hg]
  · rw [hs]
    exact hg
  · rw [hs, Grouping.owed_addElement]
    omega

/-- A child adds what it holds, if it is a form. -/
theorem Grouping.holdings_step {g : Grouping} {c : Node}
    (h : (∀ n, f (.discard n) = f n) ∨ g.owed = 0 ∧ c.discardDepth ≤ 1) :
    (g.step c).holdings f = g.holdings f ++ if c.isForm = true then f c else [] := by
  rcases g.step_cases c with ⟨hnoise, hs⟩ | ⟨text, rfl, hs⟩ | ⟨rfl, hm, hs⟩ | ⟨hform, -, hs⟩
  · have hnot : c.isForm = false := by simp [Node.isForm, hnoise]
    rw [hs, if_neg (Bool.eq_false_iff.mp hnot), List.append_nil]
    rfl
  · rw [hs, Grouping.holdings_addComment, Grouping.holdings_flush,
      if_neg (by simp [Node.isForm, Node.isComment]), List.append_nil]
  · rw [hs, if_pos (show (Node.atom "&").isForm = true from rfl)]
    simp [Grouping.holdings, hm]
  · have htaken : f (g.taken c) = f c := by
      rcases h with h | ⟨hg, hc⟩
      · exact Node.spread_induction f h _ c
      · rw [Grouping.taken, hg, if_pos rfl, Nat.add_zero, Node.spread_of_depth hc]
    rw [hs, if_pos hform, Grouping.holdings_addElement f g hform, htaken]

/-- Children in a row add what the forms among them hold; without stacked discards nothing is owed
    behind them, either. -/
theorem Grouping.holdings_foldl {cs : List Node} {g : Grouping}
    (h : (∀ n, f (.discard n) = f n) ∨ g.owed = 0 ∧ Unstacked cs) :
    (cs.foldl Grouping.step g).holdings f = g.holdings f ++ (cs.filter Node.isForm).flatMap f ∧
      ((∀ n, f (.discard n) = f n) ∨ (cs.foldl Grouping.step g).owed = 0) := by
  induction cs generalizing g with
  | nil => exact ⟨by simp, h.imp id And.left⟩
  | cons c cs ih =>
    have hone : (∀ n, f (.discard n) = f n) ∨ g.owed = 0 ∧ c.discardDepth ≤ 1 :=
      h.imp id fun hu => ⟨hu.1, hu.2 c (List.mem_cons_self ..)⟩
    have hnext : (∀ n, f (.discard n) = f n) ∨ (g.step c).owed = 0 ∧ Unstacked cs :=
      h.imp id fun hu => ⟨Grouping.owed_step hu.1 (hu.2 c (List.mem_cons_self ..)),
        fun d hd => hu.2 d (List.mem_cons_of_mem _ hd)⟩
    obtain ⟨hheld, howed⟩ := ih hnext
    refine ⟨?_, howed⟩
    rw [List.foldl_cons, hheld, Grouping.holdings_step f hone, List.filter_cons, List.append_assoc]
    split <;> rfl

/-- **Grouping keeps what the forms hold**, in order: if discards do not count, or if none are
    stacked. -/
theorem holdings_group {children : List Node}
    (h : (∀ n, f (.discard n) = f n) ∨ Unstacked children) :
    Item.holdings f (Item.group children) = (children.filter Node.isForm).flatMap f := by
  obtain ⟨hheld, howed⟩ := Grouping.holdings_foldl f (g := {}) (h.imp id fun hu => ⟨rfl, hu⟩)
  rw [Item.group, Grouping.finish, Grouping.holdings_discardFirst f howed.symm,
    Grouping.holdings_flushed, hheld]
  rfl

end

/-- Unless discards are stacked, what an item holds are children. -/
theorem mem_of_unstacked {children : List Node} (h : Unstacked children) {i : Item}
    (hi : i ∈ Item.group children) (hnot : i.isComment = false) {n : Node}
    (hn : n ∈ Item.holding (fun n => [n]) i.core) : n ∈ children := by
  have hmem : n ∈ Item.holdings (fun n => [n]) (Item.group children) :=
    List.mem_flatMap.mpr ⟨i.core, Item.core_mem hi hnot, hn⟩
  rw [holdings_group (fun n => [n]) (.inr h)] at hmem
  obtain ⟨c, hc, hmem⟩ := List.mem_flatMap.mp hmem
  rw [List.mem_singleton.mp hmem]
  exact (List.mem_filter.mp hc).1

/-- Unless discards are stacked, elements are children. -/
theorem element_mem_of_unstacked {children : List Node} (h : Unstacked children) {i : Item}
    (hi : i ∈ Item.group children) (hnot : i.isComment = false) : i.element ∈ children :=
  mem_of_unstacked h hi hnot (by simp [Item.holding, Item.core])

/-- Discards put onto the last element leave the others as they are. -/
theorem Grouping.cores_discardFirst (k : Nat) (items : List Item) :
    Item.cores (Grouping.discardFirst k items) =
      match Item.cores items with
      | [] => []
      | c :: cs => (c.1.discardTimes k, c.2) :: cs := by
  induction items with
  | nil => rfl
  | cons i items ih =>
    unfold Grouping.discardFirst
    split
    · rename_i hi
      rw [Item.cores_cons_comment hi, Item.cores_cons_comment hi, ih]
    · rename_i hi
      have hi : i.isComment = false := Bool.eq_false_iff.mpr hi
      have hi' := Item.isComment_discardTimes hi k
      rw [Item.cores_cons_element hi, Item.cores_cons_element hi']
      rfl

/-! ## Comments -/

/-- The comments of the items so far. -/
def Grouping.comments (g : Grouping) : List String := Item.comments g.items.reverse

/-- The comment of an element is the one that trails it. -/
theorem Item.commentTexts_of_not {i : Item} (h : i.isComment = false) :
    i.commentTexts = i.comment.toList := if_neg (Bool.eq_false_iff.mp h)

/-- The comments of an item that is made of children are comments among them. -/
theorem Item.Made.texts {P : Node → Prop} {Q : String → Prop} {i : Item} (h : i.Made P Q) :
    ∀ text ∈ i.commentTexts, Q text := by
  intro text htext
  cases h with
  | @comment raw hcomment =>
    obtain rfl : text = raw := by
      simpa [Item.commentTexts, Item.isComment, Node.isComment, Node.text] using htext
    exact hcomment
  | @element node marker comment form made marked trailing =>
    have hnot : (⟨node, marker, comment⟩ : Item).isComment = false := (Node.isForm_iff.mp form).2
    rw [Item.commentTexts_of_not hnot] at htext
    exact trailing text (Option.mem_toList.mp htext)

/-- An `&` has no comment. -/
theorem Grouping.comments_flush (g : Grouping) : g.flushMarker.comments = g.comments := by
  unfold Grouping.flushMarker
  split
  · rename_i marker _
    have hatom : (⟨.atom marker, none, none⟩ : Item).commentTexts = [] := rfl
    simp [Grouping.comments, hatom]
  · rfl

/-- A comment is the last one, wherever it goes. -/
theorem Grouping.comments_addComment (g : Grouping) (text : String) :
    (g.addComment text).comments = g.comments ++ [text] := by
  obtain ⟨items, marker, owed, broken⟩ := g
  have hcomment : (⟨.comment text, none, none⟩ : Item).commentTexts = [text] := rfl
  cases items with
  | nil => rfl
  | cons j items =>
    simp only [Grouping.addComment]
    split
    · rename_i hattach
      simp only [Bool.and_eq_true, Bool.not_eq_true', Option.isNone_iff_eq_none] at hattach
      obtain ⟨⟨-, hj⟩, hnone⟩ := hattach
      have hj' : ({ j with comment := some text } : Item).isComment = false := hj
      simp [Grouping.comments, Item.commentTexts_of_not hj, Item.commentTexts_of_not hj', hnone]
    · simp [Grouping.comments, hcomment]

/-- An element has none yet. -/
theorem Grouping.comments_addElement (g : Grouping) {c : Node} (hc : c.isForm = true) :
    (g.addElement c).comments = g.comments := by
  have hitem : (⟨g.taken c, g.marker, none⟩ : Item).commentTexts = [] :=
    Item.commentTexts_of_not (Node.isComment_spread hc _)
  show Item.comments (List.reverse (⟨g.taken c, g.marker, none⟩ :: g.items)) = _
  rw [List.reverse_cons, Item.comments_append, Item.comments_cons, hitem]
  simp [Grouping.comments]

/-- Discards put onto an element leave the comments where they are. -/
theorem Grouping.comments_discardFirst (k : Nat) (items : List Item) :
    Item.comments (Grouping.discardFirst k items).reverse = Item.comments items.reverse := by
  induction items with
  | nil => rfl
  | cons i items ih =>
    unfold Grouping.discardFirst
    split
    · simp only [List.reverse_cons, Item.comments_append, ih]
    · rename_i hi
      have hi : i.isComment = false := Bool.eq_false_iff.mpr hi
      have hi' := Item.isComment_discardTimes hi k
      simp [Item.commentTexts_of_not hi, Item.commentTexts_of_not hi']

/-- **Grouping keeps the comments**, in order. -/
theorem comments_group (children : List Node) :
    Item.comments (Item.group children) = Node.commentsAmong children := by
  have hfold : ∀ (cs : List Node) (g : Grouping),
      (cs.foldl Grouping.step g).comments = g.comments ++ Node.commentsAmong cs := by
    intro cs
    induction cs with
    | nil => intro g; simp [Node.commentsAmong]
    | cons c cs ih =>
      intro g
      rw [List.foldl_cons, ih]
      rcases g.step_cases c with ⟨hnoise, hs⟩ | ⟨text, rfl, hs⟩ | ⟨rfl, -, hs⟩ | ⟨hform, -, hs⟩
      · have hnot : c.isComment = false := by
          rcases c with ⟨_ | _ | _ | _ | _, text⟩ | _ | _ | _ | _ <;> first | rfl | cases hnoise
        rw [hs, Node.commentsAmong_cons hnot]
        rfl
      · rw [hs, Grouping.comments_addComment, Grouping.comments_flush,
          Node.commentsAmong_cons_comment, List.append_assoc, List.singleton_append]
      · rw [hs, Node.commentsAmong_cons rfl]
        rfl
      · rw [hs, Grouping.comments_addElement g hform,
          Node.commentsAmong_cons (Node.isForm_iff.mp hform).2]
  have hchildren := hfold children {}
  rw [Item.group, Grouping.finish, Grouping.comments_discardFirst]
  have hflush := Grouping.comments_flush (children.foldl Grouping.step {})
  rw [hchildren] at hflush
  exact hflush

/-- A way to tell the comments in a node: trivia has none, a comment is one, and discards do not
    matter. -/
structure TellsComments (f : Node → List String) : Prop where
  noise : ∀ n : Node, n.isNoise = true → f n = []
  comment : ∀ text, f (.comment text) = [text]
  discard : ∀ n, f (.discard n) = f n

/-- **Comments of children.**  The comments in the children are the comments of the items and those
    in their elements. -/
theorem TellsComments.group {f : Node → List String} (hf : TellsComments f)
    (children : List Node) :
    (children.flatMap f).Perm
      (Item.comments (Item.group children) ++ Item.holdings f (Item.group children)) := by
  rw [comments_group, holdings_group f (.inl hf.discard)]
  induction children with
  | nil => exact .refl _
  | cons c cs ih =>
    rw [List.flatMap_cons, List.filter_cons]
    rcases c.noise_or_comment_or_form with hnoise | ⟨text, rfl⟩ | hform
    · have hform : c.isForm = false := by simp [Node.isForm, hnoise]
      have hcomment : c.isComment = false := by
        obtain ⟨kind, text, rfl⟩ := Node.leaf_of_noise hnoise
        cases kind <;> first | rfl | cases hnoise
      rw [hf.noise c hnoise, Node.commentsAmong_cons hcomment, if_neg (Bool.eq_false_iff.mp hform)]
      exact ih
    · rw [hf.comment]
      exact ih.cons text
    · rw [Node.commentsAmong_cons (Node.isForm_iff.mp hform).2, if_pos hform, List.flatMap_cons]
      exact (ih.append_left (f c)).trans (List.perm_append_comm_assoc ..)

end CljTidy
