/-
  Canonical order is final.

  Cutting items into blocks undoes writing blocks as items (`cut_items`), and a list that is sorted
  is left alone by sorting.  So entries are changed only if they are not canonical and in order
  (`Canonical`), a clause in canonical order is its own canonical form (`final_clause`), and so are
  declarations in canonical order (`normalizeDeclarations_normalizeDeclarations`): what stands
  before the first clause may move in front, but blocks that are ordered by their places are ordered
  by the places they are given next (`pairwise_rankBlocks`).  A declaration whose children are put
  in canonical order beforehand is therefore laid out as it would have been anyway
  (`layout_normalize`).
-/
import CljTidy.Proofs.Item.Ungroup
import CljTidy.Proofs.Namespace.Content

namespace CljTidy.Namespace

/-! ## Sorting -/

section

variable {α κ : Type} [LE κ] [DecidableLE κ] (key : α → κ)

theorem keyLe_trans (trans : ∀ a b c : κ, a ≤ b → b ≤ c → a ≤ c) (a b c : α) :
    decide (key a ≤ key b) = true → decide (key b ≤ key c) = true →
      decide (key a ≤ key c) = true := fun hab hbc =>
  decide_eq_true (trans _ _ _ (of_decide_eq_true hab) (of_decide_eq_true hbc))

theorem keyLe_total (total : ∀ a b : κ, a ≤ b ∨ b ≤ a) (a b : α) :
    (decide (key a ≤ key b) || decide (key b ≤ key a)) = true := by
  simp only [Bool.or_eq_true, decide_eq_true_eq]
  exact total (key a) (key b)

/-- What is sorted by a key is in the order of the keys. -/
theorem pairwise_sorted (trans : ∀ a b c : κ, a ≤ b → b ≤ c → a ≤ c)
    (total : ∀ a b : κ, a ≤ b ∨ b ≤ a) (xs : List α) :
    (xs.mergeSort fun a b => key a ≤ key b).Pairwise fun a b => key a ≤ key b := by
  have hsorted := List.pairwise_mergeSort (keyLe_trans key trans) (keyLe_total key total) xs
  exact hsorted.imp fun h => of_decide_eq_true h

/-- What is in order already keeps its order when more is sorted with it. -/
theorem sublist_sorted (trans : ∀ a b c : κ, a ≤ b → b ≤ c → a ≤ c)
    (total : ∀ a b : κ, a ≤ b ∨ b ≤ a) {part xs : List α}
    (hpart : part.Pairwise fun a b => key a ≤ key b) (hsub : part.Sublist xs) :
    part.Sublist (xs.mergeSort fun a b => key a ≤ key b) :=
  List.sublist_mergeSort (keyLe_trans key trans) (keyLe_total key total)
    (hpart.imp fun h => decide_eq_true h) hsub

end

/-! ## Blocks -/

/-- Comments on lines of their own, and an item that is none. -/
structure Block.Sound (block : Block) : Prop where
  comments : ∀ i ∈ block.comments, i.isComment = true
  item : block.item.isComment = false

theorem cutFrom_comments {comments : List Item} (h : ∀ i ∈ comments, i.isComment = true)
    (pending items : List Item) :
    Block.cutFrom pending (comments ++ items) = Block.cutFrom (pending ++ comments) items := by
  induction comments generalizing pending with
  | nil => simp
  | cons i comments ih =>
    obtain ⟨hi, hrest⟩ := List.forall_mem_cons.mp h
    rw [List.cons_append, Block.cutFrom, if_pos hi, ih hrest, List.append_assoc,
      List.singleton_append]

/-- **Blocks are cut where they were put together.** -/
theorem cut_items {blocks : List Block} (hblocks : ∀ b ∈ blocks, b.Sound) {trailing : List Item}
    (htrailing : ∀ i ∈ trailing, i.isComment = true) :
    Block.cut (blocks.flatMap Block.items ++ trailing) = (blocks, trailing) := by
  induction blocks with
  | nil =>
    have hcut := cutFrom_comments htrailing [] []
    rw [List.append_nil, List.nil_append] at hcut
    exact hcut
  | cons b blocks ih =>
    -- The comments of the block wait until its item comes, and no others do.
    obtain ⟨hb, hrest⟩ := List.forall_mem_cons.mp hblocks
    have hrest := ih hrest
    unfold Block.cut at hrest ⊢
    rw [List.flatMap_cons, Block.items, List.append_assoc, List.append_assoc,
      cutFrom_comments hb.comments, List.nil_append, List.singleton_append, Block.cutFrom,
      if_neg (Bool.eq_false_iff.mp hb.item), hrest]

theorem cutFrom_sound (items : List Item) :
    ∀ pending : List Item, (∀ i ∈ pending, i.isComment = true) →
      (∀ b ∈ (Block.cutFrom pending items).1, b.Sound) ∧
        ∀ i ∈ (Block.cutFrom pending items).2, i.isComment = true := by
  induction items with
  | nil => exact fun pending h => ⟨nofun, h⟩
  | cons i items ih =>
    intro pending hpending
    cases hi : i.isComment with
    | true =>
      -- A comment waits with the others.
      rw [Block.cutFrom, if_pos hi]
      refine ih _ fun j hj => ?_
      rcases List.mem_append.mp hj with hj | hj
      · exact hpending j hj
      · rw [List.mem_singleton.mp hj]
        exact hi
    | false =>
      -- The item takes them all, and nothing waits behind it.
      rw [Block.cutFrom, if_neg (Bool.eq_false_iff.mp hi)]
      obtain ⟨hblocks, htrailing⟩ := ih [] (by rintro j ⟨⟩)
      exact ⟨List.forall_mem_cons.mpr ⟨⟨hpending, hi⟩, hblocks⟩, htrailing⟩

/-- What cutting gives are comments with an item each, and comments behind the last. -/
theorem cut_sound (items : List Item) :
    (∀ b ∈ (Block.cut items).1, b.Sound) ∧ ∀ i ∈ (Block.cut items).2, i.isComment = true :=
  cutFrom_sound items [] nofun

theorem cutFrom_element (items : List Item) : ∀ pending : List Item,
    (Block.cutFrom pending items).1.map Block.item = Item.elements items := by
  induction items with
  | nil => exact fun _ => rfl
  | cons i items ih =>
    intro pending
    cases hi : i.isComment with
    | true =>
      rw [Block.cutFrom, if_pos hi, ih, Item.elements, Item.elements, List.filter_cons, hi]
      rfl
    | false =>
      rw [Block.cutFrom, if_neg (Bool.eq_false_iff.mp hi), Item.elements, List.filter_cons, hi]
      exact congrArg (i :: ·) (ih [])

/-- The items of the blocks are those that are no comments. -/
theorem cut_element (items : List Item) :
    (Block.cut items).1.map Block.item = Item.elements items := cutFrom_element items []

theorem Block.Sound.mapElement {f : Node → Node} (hf : SparesComments f) {b : Block}
    (hb : b.Sound) : (b.mapElement f).Sound :=
  ⟨hb.comments, (hf.isComment b.item.element).trans hb.item⟩

/-! ## Entries -/

/-- The canonical form of an entry is final. -/
theorem entry_entry (kind : ClauseKind) (n : Node) : kind.entry (kind.entry n) = kind.entry n := by
  cases kind with
  | other => rfl
  | requires =>
    show requireEntry (requireEntry n) = requireEntry n
    rcases n with ⟨_ | _ | _ | _ | _, text⟩ | ⟨_ | _ | _ | _ | _ | _, cs⟩ | _ | _ | _
    case leaf.atom =>
      by_cases hnamed : (Node.isKeyword (.atom text) || Node.isString (.atom text)) = true
      · simp only [requireEntry, if_pos hnamed]
      · simp only [requireEntry, if_neg hnamed]
    -- A list either becomes a vector, which stays one, or stays a list for the same reason.
    case branch.list =>
      have hsame : ∀ m, requireEntry (.list cs) = m → m = .vector cs ∨ m = .list cs := by
        intro m hm
        simp only [requireEntry] at hm
        repeat' split at hm
        · exact .inl hm.symm
        · exact .inr hm.symm
        · exact .inl hm.symm
      rcases hsame _ rfl with h | h
      · rw [h]
        rfl
      · rw [h, h]
    all_goals rfl
  | imports =>
    show importEntry (importEntry n) = importEntry n
    rcases n with ⟨_ | _ | _ | _ | _, text⟩ | ⟨_ | _ | _ | _ | _ | _, cs⟩ | _ | _ | _
    case leaf.atom =>
      by_cases hnamed : ('.' ∈ text.toList && !Node.isKeyword (.atom text)
          && !Node.isString (.atom text)) = true
      · simp only [importEntry, if_pos hnamed]
      · simp only [importEntry, if_neg hnamed]
    all_goals rfl

/-- An entry stays a form that stands for itself. -/
theorem plain_entry (kind : ClauseKind) {i : Item} (hi : i.Plain) : (i.onto kind.entry).Plain := by
  cases hi with
  | comment text =>
    rw [(spares_entry kind).onto_comment rfl]
    exact .comment text
  | @element node comment form depth named =>
    rcases entry_cases kind node with h | ⟨b, b', cs, rfl, hb, h⟩ | ⟨text, rfl, h⟩ |
        ⟨text, package, name, -, rfl, h⟩ <;> rw [Item.onto, h]
    · exact .element comment form depth named
    · exact .element comment rfl (Nat.zero_le 1) (by rintro ⟨⟩)
    · exact .element comment rfl (Nat.zero_le 1) (by rintro ⟨⟩)
    · exact .element comment rfl (Nat.zero_le 1) (by rintro ⟨⟩)

/-! ## Clauses -/

/-- A node whose canonical form is final and of its kind. -/
structure Final (n : Node) : Prop where
  clause : normalizeClause (normalizeClause n) = normalizeClause n
  kind : clauseKind? (normalizeClause n) = clauseKind? n

theorem splitHead_append {leading : List Item} (hleading : ∀ i ∈ leading, i.isComment = true)
    {head : Item} (hhead : head.isComment = false) (rest : List Item) :
    Item.splitHead (leading ++ head :: rest) = (leading, some head, rest) := by
  have hstop : ¬ head.isComment = true := Bool.eq_false_iff.mp hhead
  simp only [Item.splitHead, List.takeWhile_append_of_pos hleading,
    List.dropWhile_append_of_pos hleading, List.takeWhile_cons_of_neg hstop,
    List.dropWhile_cons_of_neg hstop, List.append_nil, List.head?_cons, List.tail_cons]

/-- Entries in canonical form, in the order of their texts on a single line. -/
structure Canonical (kind : ClauseKind) (entries : List Item) : Prop where
  entry : ∀ i ∈ entries, kind.entry i.element = i.element
  order : ((Item.elements entries).map fun i => i.element.flatten.text).Pairwise (· ≤ ·)

/-- Canonical entries are left alone. -/
theorem Canonical.clauseItems {kind : ClauseKind} {entries : List Item}
    (h : Canonical kind entries) (leading : List Item) (head : Option Item) :
    clauseItems kind leading head entries = leading ++ head.toList ++ entries := by
  have hentries : entries.map (Item.onto kind.entry) = entries := by
    conv => rhs; rw [← List.map_id entries]
    refine List.map_congr_left fun i hi => ?_
    simp only [Item.onto, h.entry i hi, id]
  have hwritten := cutFrom_mapElement (spares_entry kind) entries []
  rw [hentries, List.nil_append] at hwritten
  -- Blocks are sorted by the texts of their elements, and these are in order.
  have hkeys : ((Block.cut entries).1.map (Block.mapElement kind.entry)).map Block.sortKey =
      (Item.elements entries).map fun i => i.element.flatten.text := by
    rw [← cut_element, List.map_map, List.map_map]
    refine List.map_congr_left fun b hb => ?_
    have hmem : b.item ∈ entries := by
      have hmem : b.item ∈ (Block.cut entries).1.map Block.item := List.mem_map_of_mem hb
      rw [cut_element] at hmem
      exact (List.mem_filter.mp hmem).1
    simp only [Function.comp_apply, Block.sortKey, Block.mapElement, h.entry _ hmem]
  -- So sorting leaves the blocks where they are.
  have hsorted : (((Block.cut entries).1.map (Block.mapElement kind.entry)).mergeSort fun a b =>
      a.sortKey ≤ b.sortKey) = (Block.cut entries).1.map (Block.mapElement kind.entry) := by
    refine List.mergeSort_of_pairwise ?_
    have horder := h.order
    rw [← hkeys, List.pairwise_map] at horder
    exact horder.imp fun hle => decide_eq_true hle
  rw [Namespace.clauseItems, hsorted, List.append_assoc]
  exact congrArg (leading ++ head.toList ++ ·) hwritten

/-- The entries of a clause in canonical order are canonical. -/
theorem canonical_clauseItems (kind : ClauseKind) (leading : List Item) (head : Item)
    (entries : List Item) :
    ∃ sorted, clauseItems kind leading (some head) entries = leading ++ head :: sorted ∧
      Canonical kind sorted := by
  obtain ⟨hsound, htrailing⟩ := cut_sound entries
  let blocks := ((Block.cut entries).1.map (Block.mapElement kind.entry)).mergeSort fun a b =>
    a.sortKey ≤ b.sortKey
  have hmem : ∀ b ∈ blocks, ∃ b' ∈ (Block.cut entries).1, b'.mapElement kind.entry = b := by
    intro b hb
    exact List.mem_map.mp (List.mem_mergeSort.mp hb)
  -- The blocks are cut in the same places when they are put behind each other again.
  have hcut : Block.cut (blocks.flatMap Block.items ++ (Block.cut entries).2) =
      (blocks, (Block.cut entries).2) := by
    refine cut_items (fun b hb => ?_) htrailing
    obtain ⟨b', hb', rfl⟩ := hmem b hb
    exact (hsound b' hb').mapElement (spares_entry kind)
  have hcomment : ∀ i : Item, i.isComment = true → kind.entry i.element = i.element := by
    intro i hi
    obtain ⟨text, htext⟩ := Node.eq_comment hi
    rw [htext, (spares_entry kind).comment]
  refine ⟨blocks.flatMap Block.items ++ (Block.cut entries).2, ?_, ?_, ?_⟩
  · simp [clauseItems, blocks]
  · -- Comments are left alone, and an entry in canonical form is in canonical form.
    intro i hi
    rcases List.mem_append.mp hi with hi | hi
    · obtain ⟨b, hb, hi⟩ := List.mem_flatMap.mp hi
      obtain ⟨b', hb', rfl⟩ := hmem b hb
      rcases List.mem_append.mp hi with hi | hi
      · exact hcomment i ((hsound b' hb').comments i hi)
      · rw [List.mem_singleton.mp hi]
        exact entry_entry kind b'.item.element
    · exact hcomment i (htrailing i hi)
  · -- The order is that of the blocks.
    rw [← cut_element, hcut, List.map_map, ← Function.comp_def]
    exact List.pairwise_map.mpr (pairwise_sorted Block.sortKey (fun _ _ _ => String.le_trans)
      String.le_total _)

/-- The head of a list says what clause it is. -/
theorem clauseKind_of_head {cs ds : List Node} {leading leading' entries entries' : List Item}
    {head : Option Item} (hsplit : Item.splitHead (Item.group cs) = (leading, head, entries))
    (hsplit' : Item.splitHead (Item.group ds) = (leading', head, entries')) :
    clauseKind? (.list ds) = clauseKind? (.list cs) := by
  simp only [clauseKind?, clauseKeyword?, hsplit, hsplit']

/-- Clauses have a head. -/
theorem splitHead_of_clause {cs : List Node} {kind : ClauseKind}
    (hkind : clauseKind? (.list cs) = some kind) :
    ∃ leading head entries, Item.splitHead (Item.group cs) = (leading, some head, entries) := by
  rcases hsplit : Item.splitHead (Item.group cs) with ⟨leading, _ | head, entries⟩
  · rw [clauseKind?, clauseKeyword?, hsplit] at hkind
    cases hkind
  · exact ⟨leading, head, entries, rfl⟩

/-- The items of a clause in canonical order are plain if those of the clause are, so they are found
    again. -/
theorem group_clauseItems (kind : ClauseKind) {cs : List Node}
    (hplain : ∀ i ∈ Item.group cs, i.Plain) {leading entries : List Item} {head : Option Item}
    (hsplit : Item.splitHead (Item.group cs) = (leading, head, entries)) :
    Item.group (Item.ungroup (clauseItems kind leading head entries)) =
      clauseItems kind leading head entries := by
  obtain ⟨-, -, hitems, -⟩ := Item.splitHead_spec hsplit
  rw [hitems, ← List.append_assoc] at hplain
  refine group_ungroup fun i hi => ?_
  rw [(clauseItems_perm kind leading head entries).mem_iff] at hi
  rcases List.mem_append.mp hi with hi | hi
  · exact hplain i (List.mem_append_left _ hi)
  · obtain ⟨j, hj, rfl⟩ := List.mem_map.mp hi
    exact plain_entry kind (hplain j (List.mem_append_right _ hj))

/-- A clause in canonical order has its head, and behind it its entries in canonical form and
    order. -/
theorem splitHead_normalizeClause {cs : List Node} (hplain : ∀ i ∈ Item.group cs, i.Plain)
    {kind : ClauseKind} (hkind : clauseKind? (.list cs) = some kind) (hother : kind ≠ .other)
    {leading entries : List Item} {head : Item}
    (hsplit : Item.splitHead (Item.group cs) = (leading, some head, entries)) :
    ∃ sorted, normalizeClause (.list cs) = .list (Item.ungroup (leading ++ head :: sorted)) ∧
      Item.splitHead (Item.group (Item.ungroup (leading ++ head :: sorted))) =
        (leading, some head, sorted) ∧
      sorted.Perm (entries.map (Item.onto kind.entry)) ∧ Canonical kind sorted := by
  obtain ⟨hleading, hhead, -, -⟩ := Item.splitHead_spec hsplit
  obtain ⟨sorted, hsorted, hcanonical⟩ := canonical_clauseItems kind leading head entries
  have hperm := clauseItems_perm kind leading (some head) entries
  have hagain := group_clauseItems kind hplain hsplit
  rw [hsorted] at hagain hperm
  refine ⟨sorted, by rw [normalizeClause_eq hkind hother hsplit, hsorted], ?_, ?_, hcanonical⟩
  · rw [hagain, splitHead_append hleading (hhead head rfl)]
  · rw [List.append_assoc, List.perm_append_left_iff] at hperm
    exact hperm.cons_inv

/-- **Clauses in canonical order are final.** -/
theorem final_clause {n : Node}
    (hplain : ∀ cs, n = .list cs → clauseKeyword? n ≠ none → Node.Plain cs) : Final n := by
  rcases hkind : clauseKind? n with _ | kind
  · have hsame := normalizeClause_of_none hkind
    exact ⟨by rw [hsame, hsame], by rw [hsame]⟩
  obtain ⟨cs, rfl⟩ := Node.list_of_clause hkind
  by_cases hother : kind = .other
  · subst hother
    have hsame := normalizeClause_of_other hkind
    exact ⟨by rw [hsame, hsame], by rw [hsame]⟩
  have hkeyword : clauseKeyword? (.list cs) ≠ none := by
    intro hnone
    rw [clauseKind?, hnone] at hkind
    cases hkind
  -- A clause of entries: its items are plain, so they are found again behind its keyword.
  have hgroup := plain_of_made (hplain cs rfl hkeyword) (settled_group cs).made
  obtain ⟨leading, head, entries, hsplit⟩ := splitHead_of_clause hkind
  obtain ⟨sorted, hnormal, hsplit', -, hcanonical⟩ :=
    splitHead_normalizeClause (fun i hi => (hgroup i hi).1) hkind hother hsplit
  have hkind' := clauseKind_of_head hsplit hsplit'
  refine ⟨?_, by rw [hnormal, hkind']⟩
  rw [hnormal, normalizeClause_eq (hkind'.trans hkind) hother hsplit', hcanonical.clauseItems]
  simp

/-- The entries of a clause in canonical order are in canonical order. -/
theorem canonical_normalizeClause {n : Node}
    (hplain : ∀ cs, n = .list cs → ∀ i ∈ Item.group cs, i.Plain) {ds : List Node}
    {kind : ClauseKind} (hds : normalizeClause n = .list ds)
    (hkind : clauseKind? (normalizeClause n) = some kind) (hother : kind ≠ .other) :
    Canonical kind (Item.splitHead (Item.group ds)).2.2 := by
  rcases hn : clauseKind? n with _ | kind'
  · rw [normalizeClause_of_none hn, hn] at hkind
    cases hkind
  obtain ⟨cs, rfl⟩ := Node.list_of_clause hn
  by_cases hother' : kind' = .other
  · subst hother'
    rw [normalizeClause_of_other hn, hn] at hkind
    cases hkind
    exact absurd rfl hother
  -- What came out is a clause of entries, so what went in was one of the same kind.
  obtain ⟨leading, head, entries, hsplit⟩ := splitHead_of_clause hn
  obtain ⟨sorted, hnormal, hsplit', -, hcanonical⟩ :=
    splitHead_normalizeClause (hplain cs rfl) hn hother' hsplit
  rw [hnormal, clauseKind_of_head hsplit hsplit', hn] at hkind
  cases hkind
  rw [hnormal] at hds
  injection hds with _ hds
  subst hds
  rw [hsplit']
  exact hcanonical

/-! ## Declarations -/

/-- The place of a block says of what kind its element is. -/
def PlacedByKind (ranked : Nat × Block) : Prop :=
  match clauseKind? ranked.2.item.element with
  | some kind => ranked.1 = kind.rank
  | none => ranked.1 ≤ 1

theorem one_le_rank (kind : ClauseKind) : 1 ≤ kind.rank := by
  cases kind <;> decide

/-- The blocks that get a place are those in canonical order, and the place says of what kind they
    are. -/
theorem mem_rankBlocks {blocks : List Block} (hfinal : ∀ b ∈ blocks, Final b.item.element)
    {seen : Bool} {ranked : Nat × Block} (h : ranked ∈ rankBlocks seen blocks) :
    PlacedByKind ranked ∧ ∃ b ∈ blocks, b.mapElement normalizeClause = ranked.2 := by
  induction blocks generalizing seen with
  | nil => cases h
  | cons b blocks ih =>
    obtain ⟨hb, hrest⟩ := List.forall_mem_cons.mp hfinal
    have htail : ∀ seen, ranked ∈ rankBlocks seen blocks →
        PlacedByKind ranked ∧ ∃ b' ∈ b :: blocks, b'.mapElement normalizeClause = ranked.2 := by
      intro seen hmem
      obtain ⟨hplaced, b', hb', heq⟩ := ih hrest hmem
      exact ⟨hplaced, b', List.mem_cons_of_mem _ hb', heq⟩
    rw [rankBlocks] at h
    split at h
    · -- A clause gets the place of its kind, and its canonical form is of that kind.
      rename_i kind hkind
      rcases List.mem_cons.mp h with rfl | h
      · refine ⟨?_, b, List.mem_cons_self, rfl⟩
        show match clauseKind? (normalizeClause b.item.element) with
          | some kind' => kind.rank = kind'.rank
          | none => kind.rank ≤ 1
        rw [hb.kind, hkind]
      · exact htail true h
    · -- What is no clause stays in front, or among the other clauses if one was seen.
      rename_i hkind
      rcases List.mem_cons.mp h with rfl | h
      · refine ⟨?_, b, List.mem_cons_self, ?_⟩
        · show match clauseKind? b.item.element with
            | some kind' => (if seen then ClauseKind.rank .other else 0) = kind'.rank
            | none => (if seen then ClauseKind.rank .other else 0) ≤ 1
          rw [hkind]
          cases seen <;> decide
        · rw [Block.mapElement, normalizeClause_of_none hkind]
      · exact htail seen h

/-- Once a clause was seen, nothing gets a place in front of one that was in front of it. -/
theorem le_rankBlocks {ranked : List (Nat × Block)} (hplaced : ∀ r ∈ ranked, PlacedByKind r)
    {kind : ClauseKind} (hle : ∀ r ∈ ranked, kind.rank ≤ r.1) :
    ∀ r ∈ rankBlocks true (ranked.map Prod.snd), kind.rank ≤ r.1 := by
  induction ranked with
  | nil => nofun
  | cons first ranked ih =>
    obtain ⟨hfirst, hplaced⟩ := List.forall_mem_cons.mp hplaced
    obtain ⟨hle₁, hle⟩ := List.forall_mem_cons.mp hle
    rw [List.map_cons, rankBlocks]
    unfold PlacedByKind at hfirst
    split
    · rename_i kind' hkind
      rw [hkind] at hfirst
      refine List.forall_mem_cons.mpr ⟨?_, ih hplaced hle⟩
      show kind.rank ≤ kind'.rank
      omega
    · rename_i hkind
      rw [hkind] at hfirst
      refine List.forall_mem_cons.mpr ⟨?_, ih hplaced hle⟩
      show kind.rank ≤ 1
      omega

theorem one_le_rankBlocks (blocks : List Block) : ∀ r ∈ rankBlocks true blocks, 1 ≤ r.1 := by
  induction blocks with
  | nil => nofun
  | cons b blocks ih =>
    rw [rankBlocks]
    split
    · exact List.forall_mem_cons.mpr ⟨one_le_rank _, ih⟩
    · exact List.forall_mem_cons.mpr ⟨Nat.le_refl 1, ih⟩

/-- **Ordered blocks stay ordered.**  Blocks in the order of their places are in the order of the
    places they are given next. -/
theorem pairwise_rankBlocks {ranked : List (Nat × Block)} (hplaced : ∀ r ∈ ranked, PlacedByKind r)
    (hordered : ranked.Pairwise fun a b => a.1 ≤ b.1) (seen : Bool) :
    (rankBlocks seen (ranked.map Prod.snd)).Pairwise fun a b => a.1 ≤ b.1 := by
  induction ranked generalizing seen with
  | nil => exact .nil
  | cons first ranked ih =>
    obtain ⟨hfirst, hplaced⟩ := List.forall_mem_cons.mp hplaced
    obtain ⟨hle, hordered⟩ := List.pairwise_cons.mp hordered
    rw [List.map_cons, rankBlocks]
    unfold PlacedByKind at hfirst
    split
    · -- The place of a clause is what it was, and what is behind it had no smaller one.
      rename_i kind hkind
      rw [hkind] at hfirst
      refine .cons (fun r hr => ?_) (ih hplaced hordered true)
      exact le_rankBlocks hplaced (fun r hr => hfirst ▸ hle r hr) r hr
    · -- Anything else has the least place there is, or the least one behind a clause.
      refine .cons (fun r hr => ?_) (ih hplaced hordered seen)
      cases seen with
      | false => exact Nat.zero_le _
      | true =>
        exact one_le_rankBlocks _ r hr

/-- The places of elements of the given kinds. -/
def places : Bool → List (Option ClauseKind) → List Nat
  | _, [] => []
  | _, some kind :: kinds => kind.rank :: places true kinds
  | seen, none :: kinds => (if seen then ClauseKind.rank .other else 0) :: places seen kinds

/-- The kinds of the elements of items. -/
def kinds (items : List Item) : List (Option ClauseKind) :=
  (Item.elements items).map fun i => clauseKind? i.element

/-- The elements are in the order of their places. -/
def Ordered (items : List Item) : Prop := (places false (kinds items)).Pairwise (· ≤ ·)

theorem rankBlocks_fst (blocks : List Block) (seen : Bool) :
    (rankBlocks seen blocks).map Prod.fst =
      places seen (blocks.map fun b => clauseKind? b.item.element) := by
  induction blocks generalizing seen with
  | nil => rfl
  | cons b blocks ih =>
    rw [List.map_cons, rankBlocks]
    split
    · rename_i kind hkind
      rw [hkind, places, List.map_cons, ih]
    · rename_i hkind
      rw [hkind, places, List.map_cons, ih]

/-- Elements are in order exactly if their blocks are. -/
theorem ordered_iff (items : List Item) :
    Ordered items ↔
      (rankBlocks false (Block.cut items).1).Pairwise fun a b => a.1 ≤ b.1 := by
  have hplaces : places false (kinds items) =
      (rankBlocks false (Block.cut items).1).map Prod.fst := by
    rw [rankBlocks_fst, kinds, ← cut_element, List.map_map]
    rfl
  rw [Ordered, hplaces, List.pairwise_map]

/-- Ordered items stay where they are. -/
theorem Ordered.normalizeDeclarations {items : List Item} (h : Ordered items) :
    normalizeDeclarations items = items.map (Item.onto normalizeClause) := by
  have hsorted : (rankBlocks false (Block.cut items).1).mergeSort (fun a b => a.1 ≤ b.1) =
      rankBlocks false (Block.cut items).1 := by
    refine List.mergeSort_of_pairwise ?_
    exact ((ordered_iff items).mp h).imp fun hle => decide_eq_true hle
  have hwritten := cutFrom_mapElement spares_normalizeClause items []
  rw [List.nil_append] at hwritten
  rw [← hwritten, Namespace.normalizeDeclarations]
  simp only [hsorted]
  rw [← rankBlocks_snd (Block.cutFrom [] items).1 false, List.flatMap_map]
  rfl

/-- **Declarations in canonical order are in order.** -/
theorem ordered_normalizeDeclarations {items : List Item}
    (hfinal : ∀ i ∈ items, Final i.element) : Ordered (normalizeDeclarations items) := by
  obtain ⟨hsound, htrailing⟩ := cut_sound items
  -- Each clause is final, so each block is placed by what it is in canonical order.
  have hblocks : ∀ b ∈ (Block.cut items).1, Final b.item.element := by
    have hall := Layout.cutFrom_forall (P := fun i => Final i.element) items [] nofun hfinal
    exact fun b hb => (hall.1 b hb).2
  let ranked := (rankBlocks false (Block.cut items).1).mergeSort fun a b => a.1 ≤ b.1
  have hmem : ∀ r ∈ ranked, PlacedByKind r ∧
      ∃ b ∈ (Block.cut items).1, b.mapElement normalizeClause = r.2 :=
    fun r hr => mem_rankBlocks hblocks (List.mem_mergeSort.mp hr)
  have hordered : ranked.Pairwise fun a b => a.1 ≤ b.1 :=
    pairwise_sorted Prod.fst (fun _ _ _ => Nat.le_trans) Nat.le_total _
  -- Cut again, the declarations have the same blocks, in the order of their places.
  have hcut : Block.cut (normalizeDeclarations items) =
      (ranked.map Prod.snd, (Block.cut items).2) := by
    have hitems : normalizeDeclarations items =
        (ranked.map Prod.snd).flatMap Block.items ++ (Block.cut items).2 := by
      rw [List.flatMap_map]
      rfl
    rw [hitems]
    refine cut_items (fun b hb => ?_) htrailing
    obtain ⟨r, hr, rfl⟩ := List.mem_map.mp hb
    obtain ⟨-, b, hb, heq⟩ := hmem r hr
    rw [← heq]
    exact (hsound b hb).mapElement spares_normalizeClause
  rw [ordered_iff, hcut]
  exact pairwise_rankBlocks (fun r hr => (hmem r hr).1) hordered false

/-- The elements of declarations in canonical order are in canonical order. -/
theorem normalizeClause_of_mem {items : List Item} (hfinal : ∀ i ∈ items, Final i.element)
    {i : Item} (hi : i ∈ normalizeDeclarations items) :
    normalizeClause i.element = i.element := by
  rw [(normalizeDeclarations_perm items).mem_iff] at hi
  obtain ⟨j, hj, rfl⟩ := List.mem_map.mp hi
  exact (hfinal j hj).clause

/-- **Declarations in canonical order are final.** -/
theorem normalizeDeclarations_normalizeDeclarations {items : List Item}
    (hfinal : ∀ i ∈ items, Final i.element) :
    normalizeDeclarations (normalizeDeclarations items) = normalizeDeclarations items := by
  rw [(ordered_normalizeDeclarations hfinal).normalizeDeclarations]
  conv => rhs; rw [← List.map_id (normalizeDeclarations items)]
  refine List.map_congr_left fun i hi => ?_
  simp only [Item.onto, normalizeClause_of_mem hfinal hi, id]

theorem plain_normalizeClause {i : Item} (hi : i.Plain) : (i.onto normalizeClause).Plain := by
  cases hi with
  | comment text => exact .comment text
  | @element node comment form depth named =>
    rcases normalizeClause_cases node with h | ⟨cs, kind, leading, head, entries, rfl, -, h⟩ <;>
      rw [Item.onto, h]
    · exact .element comment form depth named
    · exact .element comment rfl (Nat.zero_le 1) (by rintro ⟨⟩)

/-! ## Whole declarations -/

/-- A declaration in canonical order. -/
theorem normalize_eq {b : Bracket} {cs : List Node} {leading items : List Item} {head : Item}
    (hsplit : Item.splitHead (Item.group cs) = (leading, some head, items))
    (hhead : head.element = .atom "ns") :
    normalize (.branch b cs) =
      .branch b (Item.ungroup (leading ++ head :: normalizeDeclarations items)) := by
  simp only [normalize, normalize?, hsplit, if_pos hhead, Option.getD_some]

/-- A node in canonical order: it is as it was, or it is headed by `ns` and what is behind the head
    is in order. -/
theorem normalize_cases (b : Bracket) (cs : List Node) :
    normalize (.branch b cs) = .branch b cs ∨
      ∃ leading head items, Item.splitHead (Item.group cs) = (leading, some head, items) ∧
        head.element = .atom "ns" ∧ normalize (.branch b cs) =
          .branch b (Item.ungroup (leading ++ head :: normalizeDeclarations items)) := by
  rcases hsplit : Item.splitHead (Item.group cs) with ⟨leading, _ | head, items⟩
  · left
    simp only [normalize, normalize?, hsplit, Option.getD_none]
  · by_cases hns : head.element = .atom "ns"
    · exact .inr ⟨leading, head, items, rfl, hns, normalize_eq hsplit hns⟩
    · left
      simp only [normalize, normalize?, hsplit, if_neg hns, Option.getD_none]

section

variable {cs : List Node}
  (hgroup : ∀ i ∈ Item.group cs, i.Plain ∧ (i.isComment = false → i.element ∈ cs))

include hgroup

/-- The elements of plain children are final if those that are clauses have plain children. -/
theorem final_group
    (hclauses : ∀ ds, .list ds ∈ cs → clauseKeyword? (.list ds) ≠ none → Node.Plain ds) :
    ∀ i ∈ Item.group cs, Final i.element := by
  intro i hi
  cases hcomment : i.isComment with
  | true =>
    obtain ⟨text, htext⟩ := Node.eq_comment hcomment
    rw [htext]
    exact ⟨rfl, rfl⟩
  | false =>
    have hmem := (hgroup i hi).2 hcomment
    refine final_clause fun ds hds hkeyword => ?_
    rw [hds] at hmem hkeyword
    exact hclauses ds hmem hkeyword

/-- The items in canonical order are found again behind the same head. -/
theorem splitHead_normalize {leading items : List Item} {head : Item}
    (hsplit : Item.splitHead (Item.group cs) = (leading, some head, items)) :
    Item.splitHead (Item.group (Item.ungroup (leading ++ head :: normalizeDeclarations items))) =
      (leading, some head, normalizeDeclarations items) := by
  obtain ⟨hleading, hhead, hitems, -⟩ := Item.splitHead_spec hsplit
  rw [hitems] at hgroup
  rw [group_ungroup, splitHead_append hleading (hhead head rfl)]
  intro i hi
  -- All items are plain: those in front, the head, and clauses in canonical order.
  rcases List.mem_append.mp hi with hi | hi
  · exact (hgroup i (List.mem_append_left _ hi)).1
  · rcases List.mem_cons.mp hi with rfl | hi
    · exact (hgroup i (List.mem_append_right _ (List.mem_append_left _ (by simp)))).1
    · rw [(normalizeDeclarations_perm items).mem_iff] at hi
      obtain ⟨j, hj, rfl⟩ := List.mem_map.mp hi
      exact plain_normalizeClause
        (hgroup j (List.mem_append_right _ (List.mem_append_right _ hj))).1

end

end CljTidy.Namespace

namespace CljTidy.Layout

/-- A declaration: its head with its name, and its clauses below in canonical order. -/
theorem list_ns {lay : Lay} {column : Int} {cs : List Node} {leading items : List Item}
    {head : Item} (hsplit : Item.splitHead (Item.group cs) = (leading, some head, items))
    (helement : head.element = .atom "ns") (hmarker : head.marker = none) :
    list .standard lay column cs =
      Rendered.withLeading
        (let r := Rule.apply lay .ns column head items
         { r with notes := .specialForm head.element.text column :: r.notes })
        (leadingComments leading) := by
  have hrule : Table.ruleFor? .standard head = some .ns := by
    simp only [Table.ruleFor?, helement, hmarker]
    decide
  simp only [list, hsplit, hrule]

/-- **Two ways to canonical order.**  A declaration that is put in canonical order beforehand is
    laid out as the declaration itself. -/
theorem layout_normalize {cs : List Node} (hshape : (Node.list cs).lacks Node.misshapen = true)
    (hns : (Node.list cs).declaresNamespace = true) (hplain : Node.Plain cs)
    (hclauses : ∀ ds, .list ds ∈ cs → Namespace.clauseKeyword? (.list ds) ≠ none → Node.Plain ds)
    (column : Int) :
    layout .standard column (Namespace.normalize (.list cs)) =
      layout .standard column (.list cs) := by
  have hcs := (Node.lacks_branch.mp hshape).2
  have hgroup := plain_group hplain hcs
  rcases hsplit : Item.splitHead (Item.group cs) with ⟨leading, _ | head, items⟩
  · simp [Node.declaresNamespace, hsplit] at hns
  obtain ⟨helement, hmarker⟩ : head.element = .atom "ns" ∧ head.marker = none := by
    simpa [Node.declaresNamespace, hsplit] using hns
  -- What is behind the head is final, so putting it in order twice is doing it once.
  obtain ⟨-, -, hitems, -⟩ := Item.splitHead_spec hsplit
  have hfinal : ∀ i ∈ items, Namespace.Final i.element := by
    intro i hi
    refine Namespace.final_group hgroup hclauses i ?_
    rw [hitems]
    exact List.mem_append_right _ (List.mem_append_right _ hi)
  have hagain := Namespace.splitHead_normalize hgroup hsplit
  rw [Namespace.normalize_eq hsplit helement, layout_eq_step, layout_eq_step]
  show list .standard (layout .standard) column _ = list .standard (layout .standard) column cs
  rw [list_ns hagain helement hmarker, list_ns hsplit helement hmarker, Rule.apply, Rule.apply,
    Namespace.normalizeDeclarations_normalizeDeclarations hfinal]

/-- Comments behind the name and inside a clause, clauses and entries that change places. -/
theorem layout_normalize_comments :
    ∃ cs, cs = [.atom "ns", .space " ", .atom "n", .space " ", .comment ";c", .newline "\n",
        .list [.atom ":import", .space " ", .atom "x.Y"],
        .list [.atom ":require", .space " ", .atom "b", .comment ";d", .newline "\n", .atom "a"]] ∧
      (Node.list cs).lacks Node.misshapen = true ∧ (Node.list cs).declaresNamespace = true ∧
      Node.Plain cs ∧
      (∀ ds, .list ds ∈ cs → Namespace.clauseKeyword? (.list ds) ≠ none → Node.Plain ds) ∧
      layout .standard 4 (Namespace.normalize (.list cs)) = layout .standard 4 (.list cs) := by
  refine ⟨_, rfl, ?hshape, ?hns, ?hplain, ?hclauses,
    layout_normalize ?hshape ?hns ?hplain ?hclauses 4⟩
  case hshape => rfl
  case hns => rfl
  case hplain => decide
  case hclauses =>
    intro ds hds _
    simp only [List.mem_cons, List.not_mem_nil, reduceCtorEq, Node.branch.injEq, true_and,
      false_or, or_false] at hds
    rcases hds with rfl | rfl <;> decide

end CljTidy.Layout
