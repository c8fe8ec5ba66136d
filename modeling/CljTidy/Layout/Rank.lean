/-
  The rank of what is laid out inside a node.

  Everything that is laid out inside a collection is an element of one of its items, or such an
  element put in canonical order.  Grouping makes no element deeper than the children, and canonical
  order makes an entry of a clause at most one level deeper, which is the level that `weight` adds.
  So all of it has a smaller rank than the collection.
-/
import CljTidy.Layout.Render

namespace CljTidy.Layout

/-! ## Weights -/

/-- The rank of a node as an element of a collection. -/
def weight (node : Node) : Nat := rank node + clauseLevel node

/-- A clause may get one level deeper, and nothing else does. -/
theorem clauseLevel_le_one (node : Node) : clauseLevel node ≤ 1 := by
  unfold clauseLevel
  repeat' split
  all_goals omega

/-- What starts with no keyword of a clause does not get deeper. -/
theorem clauseLevel_of_not_clause {node : Node} (h : Namespace.clauseKeyword? node = none) :
    clauseLevel node = 0 := by
  simp [clauseLevel, Namespace.clauseKind?, h]

/-- Leaves, wraps and vectors are no clauses. -/
@[simp] theorem clauseLevel_leaf (kind : LeafKind) (text : String) :
    clauseLevel (.leaf kind text) = 0 := rfl

@[simp] theorem clauseLevel_wrap (mark : Mark) (child : Node) :
    clauseLevel (.wrap mark child) = 0 := rfl

@[simp] theorem clauseLevel_vector (children : List Node) :
    clauseLevel (.vector children) = 0 := rfl

/-- So the weight of these is their rank. -/
@[simp] theorem weight_leaf (kind : LeafKind) (text : String) : weight (.leaf kind text) = 0 := by
  simp [weight, rank]

@[simp] theorem weight_wrap (mark : Mark) (child : Node) :
    weight (.wrap mark child) = rank child := by
  simp [weight, rank]

/-- The weight is the rank and what canonical order may add. -/
theorem rank_le_weight (node : Node) : rank node ≤ weight node := Nat.le_add_right _ _

/-- A bound on the weight is a strict bound on the rank, one higher. -/
theorem rank_lt_of_weight {node : Node} {m : Nat} (h : weight node ≤ m) : rank node < m + 1 :=
  Nat.lt_succ_of_le (Nat.le_trans (rank_le_weight node) h)

/-- The rank of a collection is taken over the weights of its children. -/
theorem weight_le_rankAll {node : Node} :
    ∀ {nodes : List Node}, node ∈ nodes → weight node ≤ rankAll nodes
  | n :: ns, h => by
      rw [rankAll]
      rcases List.mem_cons.mp h with rfl | h
      · exact Nat.le_max_left _ _
      · exact Nat.le_trans (weight_le_rankAll h) (Nat.le_max_right _ _)

/-- Conversely a bound on all the weights bounds it. -/
theorem rankAll_le {m : Nat} :
    ∀ {nodes : List Node}, (∀ n ∈ nodes, weight n ≤ m) → rankAll nodes ≤ m
  | [], _ => by simp [rankAll]
  | n :: ns, h => by
      rw [rankAll]
      exact Nat.max_le.mpr
        ⟨h n (List.mem_cons_self ..), rankAll_le fun x hx => h x (List.mem_cons_of_mem _ hx)⟩

/-- Taking discards away changes no rank: a mark has the rank of its form. -/
theorem rank_discarded (node : Node) : rank node.discarded = rank node := by
  fun_induction Node.discarded node with
  | case1 child ih => rw [ih, rank]
  | case2 => rfl

/-- Nor do discards in front make a node heavier; a clause under a discard is not put in order. -/
theorem weight_discardTimes (node : Node) (n : Nat) :
    weight (node.discardTimes n) ≤ weight node := by
  have hrank : ∀ n, rank (node.discardTimes n) = rank node := by
    intro n
    induction n with
    | zero => rfl
    | succ n ih => rw [Node.discardTimes, rank, ih]
  cases n with
  | zero => exact Nat.le_refl _
  | succ n =>
    rw [Node.discardTimes, weight_wrap, hrank]
    exact rank_le_weight _

/-! ## Elements of items -/

/-- Every element has at most the given weight. -/
def Within (m : Nat) (items : List Item) : Prop := ∀ i ∈ items, weight i.element ≤ m

/-- One more item that is not too heavy. -/
theorem within_cons {m : Nat} {i : Item} {items : List Item} (hi : weight i.element ≤ m)
    (h : Within m items) : Within m (i :: items) := by
  intro j hj
  rcases List.mem_cons.mp hj with rfl | hj
  · exact hi
  · exact h j hj

/-- One item less. -/
theorem within_tail {m : Nat} {i : Item} {items : List Item} (h : Within m (i :: items)) :
    Within m items :=
  fun j hj => h j (List.mem_cons_of_mem _ hj)

/-- A marker that becomes an element of its own is a leaf. -/
theorem within_flushMarker {m : Nat} {g : Grouping} (h : Within m g.items) :
    Within m g.flushMarker.items := by
  unfold Grouping.flushMarker
  split
  · exact within_cons (by simp) h
  · exact h

/-- A comment goes to the item in front, or becomes a leaf of its own. -/
theorem within_addComment {m : Nat} {g : Grouping} (text : String) (h : Within m g.items) :
    Within m (g.addComment text).items := by
  unfold Grouping.addComment
  split
  · rename_i item items heq
    rw [heq] at h
    split
    · exact within_cons (h item (List.mem_cons_self ..)) (within_tail h)
    · rw [heq]; exact within_cons (by simp) h
  · exact within_cons (by simp) fun _ hi => by simp at hi

/-- An element is added as it is or with discards in front of it. -/
theorem within_addElement {m : Nat} {g : Grouping} {node : Node} (hn : weight node ≤ m)
    (h : Within m g.items) : Within m (g.addElement node).items := by
  have hd : weight (.discard node.discarded) ≤ m := by
    rw [weight_wrap, rank_discarded]
    exact Nat.le_trans (rank_le_weight node) hn
  exact within_cons (iteInduction (motive := (weight · ≤ m)) (fun _ => hn) fun _ => hd) h

/-- One child adds no element that is heavier than it is. -/
theorem within_step {m : Nat} {g : Grouping} {node : Node} (hn : weight node ≤ m)
    (h : Within m g.items) : Within m (g.step node).items := by
  unfold Grouping.step
  split
  · exact h
  · exact h
  · exact h
  · exact within_addComment _ (within_flushMarker h)
  · split
    · exact h
    · exact within_addElement hn h
  · exact within_addElement hn h

/-- Discards that are left over go onto an element that is there already. -/
theorem within_discardFirst {m n : Nat} :
    ∀ {items : List Item}, Within m items → Within m (Grouping.discardFirst n items)
  | [], h => h
  | i :: items, h => by
      unfold Grouping.discardFirst
      split
      · exact within_cons (h i (List.mem_cons_self ..)) (within_discardFirst (within_tail h))
      · exact within_cons
          (Nat.le_trans (weight_discardTimes ..) (h i (List.mem_cons_self ..))) (within_tail h)

/-- Grouping makes no element heavier than the children. -/
theorem within_group (children : List Node) : Within (rankAll children) (Item.group children) := by
  -- Induction along the children, for any items grouped already.
  have key : ∀ (nodes : List Node) (g : Grouping), (∀ n ∈ nodes, n ∈ children) →
      Within (rankAll children) g.items →
      Within (rankAll children) (nodes.foldl Grouping.step g).items := by
    intro nodes
    induction nodes with
    | nil => exact fun _ _ h => h
    | cons n ns ih =>
      intro g hmem h
      exact ih _ (fun x hx => hmem x (List.mem_cons_of_mem _ hx))
        (within_step (weight_le_rankAll (hmem n (List.mem_cons_self ..))) h)
  intro i hi
  have h := key children {} (fun _ h => h) (fun _ h => by simp at h)
  simp only [Item.group, Grouping.finish, List.mem_reverse] at hi
  exact within_discardFirst (within_flushMarker h) i hi

/-- Splitting items at their head loses none and keeps their order. -/
theorem splitHead_eq (items : List Item) :
    (Item.splitHead items).1 ++ (Item.splitHead items).2.1.toList ++ (Item.splitHead items).2.2
      = items := by
  simp only [Item.splitHead, List.append_assoc]
  conv => rhs; rw [← List.takeWhile_append_dropWhile (p := Item.isComment) (l := items)]
  cases items.dropWhile Item.isComment <;> simp

/-- The head and the items behind it are among the items. -/
theorem within_splitHead {m : Nat} {items leading rest : List Item} {head : Item}
    (h : Within m items) (hs : Item.splitHead items = (leading, some head, rest)) :
    weight head.element ≤ m ∧ Within m rest ∧ Within m leading := by
  have heq := splitHead_eq items
  rw [hs] at heq
  subst heq
  exact ⟨h _ (by simp), fun i hi => h i (by simp [hi]), fun i hi => h i (by simp [hi])⟩

/-! ## Canonical declarations -/

/-- Writing items out as children again makes no child heavier than the elements: what is added is
    a leaf, or a marker, a leaf as well. -/
theorem rankAll_ungroup_le {m : Nat} {items : List Item} (h : Within m items) :
    rankAll (Item.ungroup items) ≤ m := by
  have hnodes : ∀ i ∈ items, ∀ n ∈ i.nodes, weight n ≤ m := by
    intro i hi n hn
    have he := h i hi
    unfold Item.nodes at hn
    split at hn <;> split at hn <;> try split at hn
    all_goals simp at hn
    all_goals grind [weight_leaf]
  have key : ∀ (items : List Item) (lineOpen : Bool), (∀ i ∈ items, ∀ n ∈ i.nodes, weight n ≤ m) →
      ∀ n ∈ Item.ungroupFrom lineOpen items, weight n ≤ m := by
    intro items
    induction items with
    | nil => intro _ _ n hn; simp [Item.ungroupFrom] at hn
    | cons i items ih =>
      intro lineOpen h n hn
      simp only [Item.ungroupFrom, List.mem_append] at hn
      rcases hn with (hn | hn) | hn
      · split at hn
        · rw [List.mem_singleton] at hn
          subst hn
          unfold Item.separator
          split <;> simp
        · simp at hn
      · exact h i (List.mem_cons_self ..) n hn
      · exact ih _ (fun j hj => h j (List.mem_cons_of_mem _ hj)) n hn
  exact rankAll_le (key items false hnodes)

/-- A package and a class name do not make a clause with entries. -/
theorem clauseLevel_import {package name : String} (h : Node.isKeyword (.atom package) = false) :
    clauseLevel (.list [.atom package, .space " ", .atom name]) = 0 := by
  by_cases hp : package = "&"
  · have hg : Item.group [.atom package, .space " ", .atom name] =
        [⟨.atom name, some package, none⟩] := by
      simp [Item.group, Grouping.step, hp, Grouping.addElement, Grouping.finish,
        Grouping.flushMarker, Grouping.discardFirst, Node.discardDepth, Item.isComment,
        Node.isComment, Node.discardTimes]
    have hs : Item.splitHead [(⟨.atom name, some package, none⟩ : Item)] =
        ([], some ⟨.atom name, some package, none⟩, []) := by
      simp [Item.splitHead, Item.isComment, Node.isComment]
    unfold clauseLevel
    split <;> simp_all
  · refine clauseLevel_of_not_clause ?_
    have hg : ∃ items, Item.group [.atom package, .space " ", .atom name] =
        ⟨.atom package, none, none⟩ :: items := by
      by_cases hn : name = "&" <;>
      simp [Item.group, Grouping.step, hp, hn, Grouping.addElement, Grouping.finish,
        Grouping.flushMarker, Grouping.discardFirst, Node.discardDepth, Item.isComment,
        Node.isComment, Node.discardTimes]
    obtain ⟨items, hg⟩ := hg
    simp [Namespace.clauseKeyword?, hg, Item.splitHead, Item.isComment, Node.isComment, h]

/-- A canonical entry is at most one level deeper than the entry. -/
theorem weight_entry_le (kind : Namespace.ClauseKind) (node : Node) :
    weight (kind.entry node) ≤ weight node + 1 := by
  cases kind with
  | other => exact Nat.le_add_right _ _
  | requires =>
    simp only [Namespace.ClauseKind.entry, Namespace.requireEntry]
    split
    · split
      · exact Nat.le_add_right _ _
      · simp [weight, rank, rankAll]
    -- A list of libraries becomes a vector: no deeper, but no clause any more.
    · have hv : ∀ children, weight (.vector children) ≤ weight (.list children) + 1 := by
        intro children
        simp [weight, rank]
        omega
      repeat' split
      all_goals first | exact hv _ | exact Nat.le_add_right _ _
    · exact Nat.le_add_right _ _
  | imports =>
    simp only [Namespace.ClauseKind.entry, Namespace.importEntry]
    split
    · rename_i children
      have hl := clauseLevel_le_one (.list children)
      simp only [weight, rank] at *
      omega
    · rename_i text
      split
      · rename_i hcond
        simp only [Bool.and_eq_true, decide_eq_true_eq, Bool.not_eq_true'] at hcond
        obtain ⟨⟨hdot, hkey⟩, -⟩ := hcond
        have hpackage :
            Node.isKeyword (.atom (String.ofList (Namespace.splitLastDot text.toList).1))
              = false := by
          have happ := Namespace.splitLastDot_append hdot
          simp only [Node.isKeyword, String.toList_ofList] at hkey ⊢
          cases hp : (Namespace.splitLastDot text.toList).1 with
          | nil => rfl
          | cons c cs =>
            rw [hp, List.cons_append] at happ
            rw [← happ] at hkey
            simpa using hkey
        simp [weight, rank, rankAll, clauseLevel_import hpackage]
      · exact Nat.le_add_right _ _
    · exact Nat.le_add_right _ _

/-- What holds of all items holds of the comments and items of their blocks, and of the rest. -/
theorem cutFrom_forall {P : Item → Prop} :
    ∀ (items pending : List Item), (∀ i ∈ pending, P i) → (∀ i ∈ items, P i) →
      (∀ b ∈ (Namespace.Block.cutFrom pending items).1, (∀ i ∈ b.comments, P i) ∧ P b.item) ∧
        ∀ i ∈ (Namespace.Block.cutFrom pending items).2, P i
  | [], pending, hp, _ => by simpa [Namespace.Block.cutFrom] using hp
  | i :: items, pending, hp, hi => by
      have hhead := hi i (List.mem_cons_self ..)
      have htail : ∀ j ∈ items, P j := fun j hj => hi j (List.mem_cons_of_mem _ hj)
      unfold Namespace.Block.cutFrom
      split
      · exact cutFrom_forall _ _
          (fun j hj => by
            rcases List.mem_append.mp hj with hj | hj
            · exact hp j hj
            · exact List.mem_singleton.mp hj ▸ hhead)
          htail
      · have ih := cutFrom_forall items [] (fun _ h => by simp at h) htail
        refine ⟨fun b hb => ?_, ih.2⟩
        rcases List.mem_cons.mp hb with rfl | hb
        · exact ⟨hp, hhead⟩
        · exact ih.1 b hb

/-- A clause in canonical order has at most the weight of the clause. -/
theorem rank_normalizeClause_le (node : Node) :
    rank (Namespace.normalizeClause node) ≤ weight node := by
  unfold Namespace.normalizeClause
  split
  · exact rank_le_weight _
  · rename_i kind bracket children hother hkind
    have hgroup := within_group children
    have hsplit := splitHead_eq (Item.group children)
    -- Only a clause with entries has the level that its entries may take up.
    have hlevel : clauseLevel (.branch bracket children) =
        if (Item.splitHead (Item.group children)).2.2.isEmpty then 0 else 1 := by
      unfold clauseLevel
      rw [hkind]
      cases kind <;> simp_all
    generalize hs : Item.splitHead (Item.group children) = parts at *
    obtain ⟨leading, head, entries⟩ := parts
    simp only at hsplit hlevel ⊢
    rw [← hsplit] at hgroup
    have hw : weight (.branch bracket children)
        = rankAll children + (if entries.isEmpty then 0 else 1) + 1 := by
      rw [weight, rank, hlevel]; omega
    rw [hw, rank]
    refine Nat.succ_le_succ (rankAll_ungroup_le fun i hi => ?_)
    have hcut := cutFrom_forall (P := fun i => weight i.element ≤ rankAll children)
      entries [] (fun _ h => by simp at h)
      (fun i hi => hgroup i (by simp [hi]))
    simp only [List.mem_append, List.mem_flatMap, List.mem_mergeSort, List.mem_map] at hi
    rcases hi with ((hi | hi) | ⟨b, ⟨b', hb', rfl⟩, hi⟩) | hi
    · exact Nat.le_trans (hgroup i (by simp [hi])) (Nat.le_add_right _ _)
    · exact Nat.le_trans (hgroup i (by simp at hi; simp [hi])) (Nat.le_add_right _ _)
    · have hne : entries.isEmpty = false := by
        cases entries with
        | nil => simp [Namespace.Block.cut, Namespace.Block.cutFrom] at hb'
        | cons => rfl
      have hb := hcut.1 b' hb'
      simp only [Namespace.Block.items, Namespace.Block.mapElement, List.mem_append,
        List.mem_singleton] at hi
      simp only [hne]
      -- A comment above an entry is not touched; the entry itself may get one level deeper.
      rcases hi with hi | rfl
      · exact Nat.le_trans (hb.1 i hi) (Nat.le_add_right _ _)
      · exact Nat.le_trans (weight_entry_le kind b'.item.element) (Nat.succ_le_succ hb.2)
    · exact Nat.le_trans (hcut.2 i hi) (Nat.le_add_right _ _)
  · exact rank_le_weight _

/-- Every element has a rank below the bound. -/
def Below (r : Nat) (items : List Item) : Prop := ∀ i ∈ items, rank i.element < r

/-- Items of bounded weight are below the rank one higher. -/
theorem below_of_within {m : Nat} {items : List Item} (h : Within m items) :
    Below (m + 1) items :=
  fun i hi => rank_lt_of_weight (h i hi)

/-- The head of a list and the items behind it are below the list. -/
theorem below_splitHead {children : List Node} {leading rest : List Item} {head : Item}
    (hs : Item.splitHead (Item.group children) = (leading, some head, rest)) :
    rank head.element < rankAll children + 1 ∧ Below (rankAll children + 1) rest := by
  obtain ⟨hhead, hrest, -⟩ := within_splitHead (within_group children) hs
  exact ⟨rank_lt_of_weight hhead, below_of_within hrest⟩

/-- Declarations in canonical order are not deeper than their weights. -/
theorem below_normalizeDeclarations {m : Nat} {items : List Item} (h : Within m items) :
    Below (m + 1) (Namespace.normalizeDeclarations items) := by
  have hcut := cutFrom_forall (P := fun i => weight i.element ≤ m) items []
    (fun _ h => by simp at h) h
  -- The comments of a block are no deeper than they were, and its clause is no deeper than it
  -- weighs.
  have hrank : ∀ (blocks : List Namespace.Block) (seen : Bool),
      (∀ b ∈ blocks, (∀ i ∈ b.comments, weight i.element ≤ m) ∧ weight b.item.element ≤ m) →
      ∀ rb ∈ Namespace.rankBlocks seen blocks, ∀ i ∈ rb.2.items, rank i.element ≤ m := by
    intro blocks
    induction blocks with
    | nil => intro _ _ rb hrb; simp [Namespace.rankBlocks] at hrb
    | cons b blocks ih =>
      intro seen hb rb hrb i hi
      have hhead := hb b (List.mem_cons_self ..)
      have htail := fun c hc => hb c (List.mem_cons_of_mem _ hc)
      unfold Namespace.rankBlocks at hrb
      split at hrb <;> rcases List.mem_cons.mp hrb with rfl | hrb
      · simp only [Namespace.Block.items, Namespace.Block.mapElement, List.mem_append,
          List.mem_singleton] at hi
        rcases hi with hi | rfl
        · exact Nat.le_trans (rank_le_weight _) (hhead.1 i hi)
        · exact Nat.le_trans (rank_normalizeClause_le _) hhead.2
      · exact ih _ htail rb hrb i hi
      · simp only [Namespace.Block.items, List.mem_append, List.mem_singleton] at hi
        rcases hi with hi | rfl
        · exact Nat.le_trans (rank_le_weight _) (hhead.1 i hi)
        · exact Nat.le_trans (rank_le_weight _) hhead.2
      · exact ih _ htail rb hrb i hi
  intro i hi
  simp only [Namespace.normalizeDeclarations, List.mem_append, List.mem_flatMap,
    List.mem_mergeSort] at hi
  refine Nat.lt_succ_of_le ?_
  -- An item of a block, or one behind all blocks.
  rcases hi with ⟨rb, hrb, hi⟩ | hi
  · exact hrank _ _ hcut.1 rb hrb i hi
  · exact Nat.le_trans (rank_le_weight _) (hcut.2 i hi)

end CljTidy.Layout
