/-
  Canonical order is a stable sort of blocks.

  A list is stably ordered by a key if the keys ascend and what has one key stands in the order it
  had (`StablyOrdered`).  That says everything: there is one such order (`StablyOrdered.unique`).
  Sorting finds it, and if the keys are known beforehand it is the parts with one key each in a row
  (`stablyOrdered_parts`).

  Items are divided into blocks in one way only (`Divided.cut`).  Declarations in canonical order
  are four parts of their blocks in a row, with no sorting in sight (`Arranged`): that is what
  sorting by ranks comes to (`sorted_rankBlocks`).  The entries of a clause are its blocks with
  their entries in canonical form, stably ordered by texts that can all be written (`EntriesSorted`,
  `isKnown_flatten`).  Both say what the result is, and not only something about it
  (`Arranged.unique`, `EntriesSorted.unique`).  That these items of a clause are the ones that it
  has when it is grouped again is `group_clauseItems`.
-/
import CljTidy.Proofs.Namespace.Order

namespace CljTidy

/-! ## Known nodes -/

namespace Node

/-- The items of known nodes are known. -/
theorem isKnown_group {cs : List Node} (h : allKnown cs = true) :
    ∀ i ∈ Item.group cs, i.element.isKnown = true := by
  rw [allKnown_eq, List.all_eq_true] at h
  have hmade := made_group_of_spread (P := fun n => n.isKnown = true) (Q := fun _ => True)
    (fun _ _ hn => hn)
    (fun n depth _ hn => (Node.spread_induction isKnown (fun _ => rfl) depth n).trans hn)
    (fun c hc _ => h c hc) fun _ _ => trivial
  intro i hi
  cases hmade i hi with
  | comment => rfl
  | element form made marked => exact made

/-- A line of known items is known. -/
theorem allKnown_inline {items : List Item} (h : ∀ i ∈ items, i.element.isKnown = true) :
    allKnown (Item.inline items) = true := by
  rw [allKnown_eq, List.all_eq_true]
  exact Item.forall_inline (P := fun n => n.isKnown = true) rfl (fun _ => rfl) h

/-- **Single lines.**  A known node is known on a single line. -/
theorem isKnown_flatten {n : Node} (h : n.isKnown = true) : n.flatten.isKnown = true := by
  revert h
  refine Layout.item_induction
    (P := fun n => n.isKnown = true → n.flatten.isKnown = true) ?_ ?_ ?_ ?_ ?_ n
  · exact fun _ _ h => h
  · intro b cs ih h
    cases hb : b.isCollection with
    | false =>
      rw [flatten, if_neg (Bool.eq_false_iff.mp hb)]
      exact h
    | true =>
      rw [flatten_collection hb, inward_flatten.group]
      refine allKnown_inline fun j hj => ?_
      obtain ⟨i, hi, rfl⟩ := List.mem_map.mp hj
      exact ih i hi (isKnown_group h i hi)
  · exact fun m n ih h => ih h
  · intro m t ihm iht h
    obtain ⟨hm, ht⟩ := Bool.and_eq_true_iff.mp h
    rw [flatten, isKnown, ihm hm, iht ht]
    rfl
  · exact fun h => h

end Node

namespace Namespace

/-- An entry stays known. -/
theorem isKnown_entry (kind : ClauseKind) {n : Node} (h : n.isKnown = true) :
    (kind.entry n).isKnown = true := by
  rcases entry_cases kind n with hn | ⟨b, b', cs, rfl, -, hn⟩ | ⟨text, rfl, hn⟩ |
    ⟨_, _, _, -, rfl, hn⟩ <;> rw [hn]
  · exact h
  · exact h
  · rfl
  · rfl

/-! ## Stable order -/

section

variable {α κ : Type} [DecidableEq κ] {key : α → κ}

/-- Lists with the same elements for each key have the same elements. -/
theorem mem_of_filters {xs ys : List α}
    (h : ∀ k, (xs.filter fun a => key a = k) = ys.filter fun a => key a = k) {a : α}
    (ha : a ∈ xs) : a ∈ ys := by
  have hmem : a ∈ xs.filter fun b => key b = key a := List.mem_filter.mpr ⟨ha, by simp⟩
  rw [h] at hmem
  exact (List.mem_filter.mp hmem).1

theorem key_of_mem_filter {xs : List α} {k : κ} {a : α}
    (ha : a ∈ xs.filter fun b => key b = k) : key a = k := by
  simpa using (List.mem_filter.mp ha).2

/-- Of the parts with one key each, only the one with the key has the key. -/
theorem filter_parts {ks : List κ} (hks : ks.Nodup) (xs : List α) (k : κ) :
    ((ks.flatMap fun j => xs.filter fun a => key a = j).filter fun a => key a = k) =
      if k ∈ ks then xs.filter fun a => key a = k else [] := by
  induction ks with
  | nil => rfl
  | cons j ks ih =>
    obtain ⟨hj, hks⟩ := List.nodup_cons.mp hks
    have hpart : ((xs.filter fun a => key a = j).filter fun a => key a = k) =
        if k = j then xs.filter fun a => key a = k else [] := by
      split
      · rename_i heq
        rw [heq, List.filter_filter]
        simp
      · rename_i hne
        refine List.filter_eq_nil_iff.mpr fun a ha => ?_
        simpa [key_of_mem_filter ha] using fun heq : j = k => hne heq.symm
    rw [List.flatMap_cons, List.filter_append, hpart, ih hks]
    by_cases hk : k = j
    · subst hk
      simp [hj]
    · simp [hk]

variable [LE κ]

/-- What has one key is in order. -/
theorem pairwise_filter (refl : ∀ a : κ, a ≤ a) (xs : List α) (k : κ) :
    (xs.filter fun a => key a = k).Pairwise fun a b => key a ≤ key b := by
  refine List.pairwise_of_forall_mem_list fun a ha b hb => ?_
  rw [key_of_mem_filter ha, key_of_mem_filter hb]
  exact refl k

/-- The second list is the first one in ascending order of the keys.  What has one key, whichever,
    is in both the same, in the same order; so nothing is lost and nothing is new. -/
structure StablyOrdered (key : α → κ) (xs ys : List α) : Prop where
  ordered : ys.Pairwise fun a b => key a ≤ key b
  stable : ∀ k, (ys.filter fun a => key a = k) = xs.filter fun a => key a = k

omit [DecidableEq κ] in
theorem first_le (refl : ∀ a : κ, a ≤ a) {x y : α} {xs : List α}
    (h : (x :: xs).Pairwise fun a b => key a ≤ key b) (hy : y ∈ x :: xs) : key x ≤ key y := by
  rcases List.mem_cons.mp hy with rfl | hy
  · exact refl _
  · exact List.rel_of_pairwise_cons h hy

/-- Lists in ascending order with the same elements for each key, in the same order, are equal. -/
theorem eq_of_filters (refl : ∀ a : κ, a ≤ a) (antisymm : ∀ a b : κ, a ≤ b → b ≤ a → a = b)
    {xs ys : List α} (hx : xs.Pairwise fun a b => key a ≤ key b)
    (hy : ys.Pairwise fun a b => key a ≤ key b)
    (h : ∀ k, (xs.filter fun a => key a = k) = ys.filter fun a => key a = k) : xs = ys := by
  induction xs generalizing ys with
  | nil =>
    cases ys with
    | nil => rfl
    | cons y ys => cases mem_of_filters (fun k => (h k).symm) (List.mem_cons_self ..)
  | cons x xs ih =>
    cases ys with
    | nil => cases mem_of_filters h (List.mem_cons_self ..)
    | cons y ys =>
      -- Each first element is in the other list, so neither key is above the other one.
      have hy₁ := mem_of_filters (fun k => (h k).symm) (List.mem_cons_self (a := y) (l := ys))
      have hx₁ := mem_of_filters h (List.mem_cons_self (a := x) (l := xs))
      have hkey : key x = key y := antisymm _ _ (first_le refl hx hy₁) (first_le refl hy hx₁)
      have hfirst := h (key x)
      rw [List.filter_cons_of_pos (by simp), List.filter_cons_of_pos (by simp [hkey])] at hfirst
      obtain rfl : x = y := (List.cons.inj hfirst).1
      refine congrArg (x :: ·) (ih hx.of_cons hy.of_cons fun k => ?_)
      have hk := h k
      by_cases hxk : key x = k
      · rw [List.filter_cons_of_pos (by simpa using hxk),
          List.filter_cons_of_pos (by simpa using hxk)] at hk
        exact (List.cons.inj hk).2
      · rwa [List.filter_cons_of_neg (by simpa using hxk),
          List.filter_cons_of_neg (by simpa using hxk)] at hk

/-- **There is one stable order.** -/
theorem StablyOrdered.unique (refl : ∀ a : κ, a ≤ a)
    (antisymm : ∀ a b : κ, a ≤ b → b ≤ a → a = b) {xs ys zs : List α}
    (hy : StablyOrdered key xs ys) (hz : StablyOrdered key xs zs) : ys = zs :=
  eq_of_filters refl antisymm hy.ordered hz.ordered fun k => (hy.stable k).trans (hz.stable k).symm

/-- **Sorting is stable.** -/
theorem stablyOrdered_mergeSort [DecidableLE κ] (key : α → κ)
    (trans : ∀ a b c : κ, a ≤ b → b ≤ c → a ≤ c) (total : ∀ a b : κ, a ≤ b ∨ b ≤ a)
    (xs : List α) : StablyOrdered key xs (xs.mergeSort fun a b => key a ≤ key b) := by
  refine ⟨pairwise_sorted key trans total xs, fun k => ?_⟩
  -- What has one key is in order already, so sorting keeps it as it is, between the rest.
  have hpart : (xs.filter fun a => key a = k).Pairwise fun a b => key a ≤ key b :=
    pairwise_filter (fun k => (total k k).elim id id) xs k
  have hkept := (sublist_sorted key trans total hpart List.filter_sublist).filter
    fun a => key a = k
  simp only [List.filter_filter, Bool.and_self] at hkept
  exact (hkept.eq_of_length ((List.mergeSort_perm xs _).filter _).length_eq.symm).symm

/-- **Parts in a row.**  The parts with one key each, in ascending order of the keys, are the stable
    order. -/
theorem stablyOrdered_parts (refl : ∀ a : κ, a ≤ a) {ks : List κ}
    (hks : ks.Pairwise fun a b => a ≤ b ∧ a ≠ b) {xs : List α} (hall : ∀ a ∈ xs, key a ∈ ks) :
    StablyOrdered key xs (ks.flatMap fun k => xs.filter fun a => key a = k) := by
  refine ⟨List.pairwise_flatMap.mpr ⟨fun k _ => pairwise_filter refl xs k, ?_⟩, fun k => ?_⟩
  · refine hks.imp fun hle a ha b hb => ?_
    rw [key_of_mem_filter ha, key_of_mem_filter hb]
    exact hle.1
  · rw [filter_parts (hks.imp fun hle => hle.2)]
    split
    · rfl
    · rename_i hk
      refine (List.filter_eq_nil_iff.mpr fun a ha => ?_).symm
      simpa using fun heq : key a = k => hk (heq ▸ hall a ha)

end

/-! ## Blocks -/

/-- The items are the blocks in a row, each with the comments above an item, and comments behind the
    last block. -/
structure Divided (items : List Item) (blocks : List Block) (trailing : List Item) : Prop where
  sound : ∀ b ∈ blocks, b.Sound
  behind : ∀ i ∈ trailing, i.isComment = true
  whole : items = blocks.flatMap Block.items ++ trailing

/-- There is one way to divide items. -/
theorem Divided.cut {items trailing : List Item} {blocks : List Block}
    (h : Divided items blocks trailing) : Block.cut items = (blocks, trailing) := by
  rw [h.whole]
  exact cut_items h.sound h.behind

/-- Items can be divided. -/
theorem divided_cut (items : List Item) :
    Divided items (Block.cut items).1 (Block.cut items).2 := by
  obtain ⟨hblocks, htrailing⟩ := cut_sound items
  refine ⟨hblocks, htrailing, ?_⟩
  have hsame : ∀ bs : List Block, bs.map (Block.mapElement id) = bs := fun bs => List.map_id bs
  have hitems := cutFrom_mapElement (f := id) ⟨fun _ => rfl, fun _ => rfl⟩ items []
  rw [hsame, List.nil_append] at hitems
  exact (hitems.trans (List.map_id items)).symm

namespace Block

/-- The item of the block is a clause. -/
def isClause (b : Block) : Bool := (clauseKind? b.item.element).isSome

/-- What kind of clause the block is; behind the first clause everything else is like the other
    clauses. -/
def kind (b : Block) : ClauseKind := (clauseKind? b.item.element).getD .other

/-- The block with its clause, if it is one, in canonical order. -/
def canonical (b : Block) : Block := if b.isClause then b.mapElement normalizeClause else b

end Block

/-- The blocks of a declaration in canonical order: those in front of the first clause, and behind
    them other clauses, the require family and imports. -/
def arrange (blocks : List Block) : List Block :=
  let front := blocks.takeWhile fun b => !b.isClause
  let rest := blocks.dropWhile fun b => !b.isClause
  front ++ [.other, .requires, .imports].flatMap fun kind =>
    (rest.filter fun b => b.kind = kind).map Block.canonical

/-! ## Declarations -/

/-- From the first clause on, blocks are ranked by kind. -/
theorem rankBlocks_behind (blocks : List Block) :
    rankBlocks true blocks = blocks.map fun b => (b.kind.rank, b.canonical) := by
  induction blocks with
  | nil => rfl
  | cons b blocks ih =>
    rw [rankBlocks, List.map_cons, ← ih]
    cases hkind : clauseKind? b.item.element <;>
      simp [Block.kind, Block.canonical, Block.isClause, hkind]

/-- What stands in front of the first clause comes first. -/
theorem rankBlocks_eq (blocks : List Block) :
    rankBlocks false blocks =
      (blocks.takeWhile fun b => !b.isClause).map (Prod.mk 0) ++
        (blocks.dropWhile fun b => !b.isClause).map fun b => (b.kind.rank, b.canonical) := by
  induction blocks with
  | nil => rfl
  | cons b blocks ih =>
    cases hkind : clauseKind? b.item.element with
    | none =>
      have hclause : b.isClause = false := by rw [Block.isClause, hkind]; rfl
      rw [rankBlocks, hkind, List.takeWhile_cons, List.dropWhile_cons, hclause]
      exact congrArg ((0, b) :: ·) ih
    | some kind =>
      have hclause : b.isClause = true := by rw [Block.isClause, hkind]; rfl
      have hrest : rankBlocks false (b :: blocks) = rankBlocks true (b :: blocks) := by
        rw [rankBlocks, rankBlocks, hkind]
      rw [hrest, rankBlocks_behind, List.takeWhile_cons, List.dropWhile_cons, hclause]
      rfl

theorem rank_injective {kind kind' : ClauseKind} : kind.rank = kind'.rank ↔ kind = kind' := by
  cases kind <;> cases kind' <;> decide

/-- **Declarations are arranged.**  Blocks in the order of their ranks are in canonical order. -/
theorem sorted_rankBlocks (blocks : List Block) :
    ((rankBlocks false blocks).mergeSort fun a b => a.1 ≤ b.1).map Prod.snd = arrange blocks := by
  let kinds : List ClauseKind := [.other, .requires, .imports]
  have hall : ∀ r ∈ rankBlocks false blocks, r.1 ∈ 0 :: kinds.map ClauseKind.rank := by
    intro r hr
    rw [rankBlocks_eq] at hr
    rcases List.mem_append.mp hr with hr | hr
    · obtain ⟨b, -, rfl⟩ := List.mem_map.mp hr
      exact List.mem_cons_self ..
    · obtain ⟨b, -, rfl⟩ := List.mem_map.mp hr
      refine List.mem_cons_of_mem _ (List.mem_map_of_mem ?_)
      cases b.kind <;> decide
  have hsorted := stablyOrdered_mergeSort (Prod.fst : Nat × Block → Nat)
    (fun _ _ _ => Nat.le_trans) Nat.le_total (rankBlocks false blocks)
  have hparts := stablyOrdered_parts Nat.le_refl (by decide) hall
  rw [hsorted.unique Nat.le_refl (fun _ _ => Nat.le_antisymm) hparts]
  -- No block in front has the rank of a kind, and behind them no block is in front.
  have hfront : ∀ kind : ClauseKind, ¬ 0 = kind.rank := fun kind hrank =>
    absurd (one_le_rank kind) (by omega)
  have hbehind : ∀ kind : ClauseKind, ¬ kind.rank = 0 := fun kind hrank => hfront kind hrank.symm
  rw [rankBlocks_eq, arrange]
  simp [kinds, List.filter_map, Function.comp_def, rank_injective, hfront, hbehind]

/-- The items are divided into blocks, and these are arranged. -/
def Arranged (items items' : List Item) : Prop :=
  ∃ blocks trailing, Divided items blocks trailing ∧
    items' = (arrange blocks).flatMap Block.items ++ trailing

/-- There is one such arrangement. -/
theorem Arranged.unique {items xs ys : List Item} (hx : Arranged items xs)
    (hy : Arranged items ys) : xs = ys := by
  obtain ⟨blocks, trailing, hdivided, rfl⟩ := hx
  obtain ⟨blocks', trailing', hdivided', rfl⟩ := hy
  obtain ⟨rfl, rfl⟩ := Prod.mk.inj (hdivided.cut.symm.trans hdivided'.cut)
  rfl

/-- **Declarations are arranged.** -/
theorem arranged_normalizeDeclarations (items : List Item) :
    Arranged items (normalizeDeclarations items) := by
  refine ⟨_, _, divided_cut items, ?_⟩
  rw [normalizeDeclarations, ← sorted_rankBlocks, List.flatMap_map]

theorem canOrder_of_known {items : List Item} (h : ∀ i ∈ items, i.element.isKnown = true) :
    canOrder items = true := by
  refine List.all_eq_true.mpr fun i hi => ?_
  cases hkind : clauseKind? i.element with
  | none => rfl
  | some kind =>
    cases kind with
    | other => rfl
    | requires => exact h i hi
    | imports => exact h i hi

/-! ## Clauses -/

/-- The comments in front of the head and the head are as they were.  Behind them stand the blocks
    of the entries, with the entries in canonical form, stably ordered by the texts of these on a
    single line, which can all be written, and behind the last one stands what stood there. -/
def EntriesSorted (kind : ClauseKind) (items items' : List Item) : Prop :=
  ∃ leading head entries blocks trailing sorted,
    items = leading ++ head :: entries ∧ (∀ i ∈ leading, i.isComment = true) ∧
    head.isComment = false ∧ Divided entries blocks trailing ∧
    (∀ b ∈ blocks, (kind.entry b.item.element).flatten.written? =
      some (b.mapElement kind.entry).sortKey) ∧
    StablyOrdered Block.sortKey (blocks.map (Block.mapElement kind.entry)) sorted ∧
    items' = leading ++ head :: (sorted.flatMap Block.items ++ trailing)

/-- There is one such order. -/
theorem EntriesSorted.unique {kind : ClauseKind} {items xs ys : List Item}
    (hx : EntriesSorted kind items xs) (hy : EntriesSorted kind items ys) : xs = ys := by
  obtain ⟨leading, head, entries, blocks, trailing, sorted, rfl, hleading, hhead, hdivided, -,
    hsorted, rfl⟩ := hx
  obtain ⟨leading', head', entries', blocks', trailing', sorted', hitems, hleading', hhead',
    hdivided', -, hsorted', rfl⟩ := hy
  have hsplit := splitHead_append hleading hhead entries
  rw [hitems, splitHead_append hleading' hhead'] at hsplit
  obtain ⟨rfl, hrest⟩ := Prod.mk.inj hsplit
  obtain ⟨hhead, rfl⟩ := Prod.mk.inj hrest
  obtain rfl := Option.some.inj hhead
  obtain ⟨rfl, rfl⟩ := Prod.mk.inj (hdivided.cut.symm.trans hdivided'.cut)
  rw [hsorted.unique String.le_refl (fun _ _ => String.le_antisymm) hsorted']

/-- **Entries are sorted.** -/
theorem entriesSorted_clauseItems (kind : ClauseKind) {items leading entries : List Item}
    {head : Item} (hknown : ∀ i ∈ items, i.element.isKnown = true)
    (hsplit : Item.splitHead items = (leading, some head, entries)) :
    EntriesSorted kind items (clauseItems kind leading (some head) entries) := by
  obtain ⟨hleading, hhead, hitems, -⟩ := Item.splitHead_spec hsplit
  have hdivided := divided_cut entries
  refine ⟨leading, head, entries, _, _, _, hitems, hleading, hhead head rfl, hdivided,
    fun b hb => ?_, stablyOrdered_mergeSort Block.sortKey (fun _ _ _ => String.le_trans)
      String.le_total _, by simp [clauseItems]⟩
  -- The item of a block is one of the entries, and so one of the items.
  have hmem : b.item ∈ items := by
    have hblock : b.item ∈ b.items := List.mem_append_right _ (List.mem_singleton.mpr rfl)
    have hentry : b.item ∈ entries := by
      rw [hdivided.whole]
      exact List.mem_append_left _ (List.mem_flatMap.mpr ⟨b, hb, hblock⟩)
    rw [hitems]
    exact List.mem_append_right _ (List.mem_append_right _ hentry)
  exact if_pos (Node.isKnown_flatten (isKnown_entry kind (hknown _ hmem)))

/-- **Canonical order is a stable sort of blocks.**  Known declarations can be put in canonical
    order, and are then arranged.  A require or import clause with known and plain children has,
    when it is grouped again, its items with the entries sorted. -/
theorem stable_normalize :
    (∀ items : List Item, (∀ i ∈ items, i.element.isKnown = true) →
      canOrder items = true ∧ Arranged items (normalizeDeclarations items)) ∧
    ∀ (cs : List Node) (kind : ClauseKind), clauseKind? (.list cs) = some kind → kind ≠ .other →
      (Node.list cs).isKnown = true → Node.Plain cs →
      ∃ ds, normalizeClause (.list cs) = .list ds ∧
        EntriesSorted kind (Item.group cs) (Item.group ds) := by
  refine ⟨fun items hknown => ⟨canOrder_of_known hknown, arranged_normalizeDeclarations items⟩,
    fun cs kind hkind hother hknown hplain => ?_⟩
  obtain ⟨leading, head, entries, hsplit⟩ := splitHead_of_clause hkind
  have hitems : ∀ i ∈ Item.group cs, i.Plain := fun i hi =>
    (plain_of_made hplain (settled_group cs).made i hi).1
  refine ⟨_, normalizeClause_eq hkind hother hsplit, ?_⟩
  rw [group_clauseItems kind hitems hsplit]
  exact entriesSorted_clauseItems kind (Node.isKnown_group hknown) hsplit

/-- A name in front of clauses that change places with their comments, and one behind them; a clause
    with two entries whose texts are the same on a single line, and a third one in front of them. -/
theorem stable_normalize_ties :
    ∃ items cs, items = ([⟨.comment ";a", none, none⟩, ⟨.atom "n", none, none⟩,
        ⟨.comment ";b", none, none⟩, ⟨.list [.atom ":import"], none, some ";c"⟩,
        ⟨.list [.atom ":require"], none, none⟩, ⟨.list [.atom ":gen-class"], none, none⟩,
        ⟨.atom "m", none, none⟩, ⟨.comment ";d", none, none⟩] : List Item) ∧
      cs = [.comment ";a", .newline "\n", .atom ":require", .list [.atom "b"], .comment ";b",
        .newline "\n", .comment ";c", .newline "\n", .atom "b", .space " ", .vector [.atom "a"],
        .newline "\n", .comment ";d"] ∧
      (∀ i ∈ items, i.element.isKnown = true) ∧ clauseKind? (.list cs) = some .requires ∧
      (Node.list cs).isKnown = true ∧ Node.Plain cs ∧
      (canOrder items = true ∧ Arranged items (normalizeDeclarations items)) ∧
      ∃ ds, normalizeClause (.list cs) = .list ds ∧
        EntriesSorted .requires (Item.group cs) (Item.group ds) := by
  refine ⟨_, _, rfl, rfl, ?hitems, ?hkind, ?hknown, ?hplain, stable_normalize.1 _ ?hitems,
    stable_normalize.2 _ _ ?hkind (by decide) ?hknown ?hplain⟩
  case hitems => decide
  case hkind => decide
  case hknown => rfl
  case hplain => decide

end Namespace

end CljTidy
