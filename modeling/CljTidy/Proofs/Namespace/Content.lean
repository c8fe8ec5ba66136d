/-
  What canonical order keeps.

  Cutting items into blocks and sorting them loses nothing: the declarations in canonical order are,
  in some order, the declarations with their clauses in canonical order
  (`normalizeDeclarations_perm`), and the items of a clause in canonical order are, in some order,
  its items with their entries in canonical form (`clauseItems_perm`).  So canonical order keeps the
  comments (`commentTexts_normalizeClause`), and it brings about no kind of node that is foreign to
  it (`lacks_normalizeClause`), misshapen ones among them.  An entry that is put on a single line
  has no comments there if it has none (`commentTexts_flatten`).
-/
import CljTidy.Proofs.Layout.Shape
import CljTidy.Proofs.Namespace.Gist
import CljTidy.Proofs.Node.Leaves

namespace CljTidy

/-! ## Comments of items -/

namespace Item

/-- The comments in an item, from left to right: those in its element, and the one behind it. -/
def allTexts (i : Item) : List String :=
  i.element.commentTexts ++ if i.isComment then [] else i.comment.toList

/-- The comments in items. -/
def allComments (items : List Item) : List String := items.flatMap allTexts

theorem allComments_append (xs ys : List Item) :
    allComments (xs ++ ys) = allComments xs ++ allComments ys :=
  List.flatMap_append

theorem allComments_perm {xs ys : List Item} (h : xs.Perm ys) :
    (allComments xs).Perm (allComments ys) := h.flatMap_right _

/-- Those of the items themselves, and those in their elements. -/
theorem allComments_eq (items : List Item) :
    (allComments items).Perm (comments items ++ holdings Node.commentTexts items) := by
  induction items with
  | nil => exact .refl _
  | cons i items ih =>
    have hone : i.allTexts.Perm (i.commentTexts ++ holdings Node.commentTexts [i]) := by
      cases hi : i.isComment with
      | true =>
        obtain ⟨element, marker, comment⟩ := i
        obtain ⟨text, rfl⟩ := Node.eq_comment hi
        exact .refl _
      | false =>
        have hmarker : ∀ m, (Node.atom m).commentTexts = [] := fun _ => rfl
        have hholding : holding Node.commentTexts i.core = i.element.commentTexts := by
          simp [holding, core, hmarker]
        rw [holdings_element _ hi, commentTexts_of_not hi, hholding, allTexts,
          if_neg (Bool.eq_false_iff.mp hi)]
        exact List.perm_append_comm
    have hboth := hone.append ih
    rw [← List.singleton_append, holdings_append, comments_append, comments_cons, comments_nil,
      List.append_nil]
    exact hboth.trans (perm_exchange ..)

/-- Items have the comments of the children they were grouped from. -/
theorem allComments_group (cs : List Node) :
    (allComments (group cs)).Perm (Node.commentTextsAll cs) :=
  (allComments_eq _).trans (Node.tells_commentTexts.group cs).symm

/-- Items that are written out have the same comments. -/
theorem commentTextsAll_ungroup (items : List Item) :
    Node.commentTextsAll (ungroup items) = allComments items := by
  have hnoise : ∀ n : Node, n.isNoise = true → n.commentTexts = [] := fun _ =>
    Node.commentTexts_noise
  have hseparator : ∀ i : Item, i.separator.commentTexts = [] := by
    intro i
    unfold separator
    split <;> rfl
  have hnodes : ∀ i : Item, Node.commentTextsAll i.nodes = i.allTexts := by
    intro i
    unfold nodes allTexts
    cases i.marker <;> cases i.isComment <;> cases i.comment <;>
      simp [hnoise (.space " ") rfl, hnoise (.newline "\n") rfl]
  suffices h : ∀ (items : List Item) (lineOpen : Bool),
      Node.commentTextsAll (ungroupFrom lineOpen items) = allComments items from h items false
  intro items
  induction items with
  | nil => exact fun _ => rfl
  | cons i items ih =>
    intro lineOpen
    rw [ungroupFrom, Node.commentTextsAll_append, Node.commentTextsAll_append, hnodes, ih]
    cases lineOpen <;> simp [allComments, hseparator]

/-- A comment has no shape to lose, so every element has the one that its forms have. -/
theorem Made.shape {Q : String → Prop} {i : Item}
    (h : i.Made (fun n => n.lacks Node.misshapen = true) Q) :
    i.element.lacks Node.misshapen = true := by
  cases h with
  | comment => rfl
  | element form made => exact made

/-- The parts of an item that is made of nodes without a kind lack it. -/
theorem Made.lacks {kind : Node → Bool} (hmarker : kind (.atom "&") = false) {i : Item}
    (h : i.Made (fun n => n.lacks kind = true) fun text => kind (.comment text) = false) :
    i.element.lacks kind = true ∧ (∀ text ∈ i.marker, (Node.atom text).lacks kind = true) ∧
      ∀ text ∈ i.comment, (Node.comment text).lacks kind = true := by
  cases h with
  | comment comment => exact ⟨Node.lacks_leaf.mpr comment, by simp, by simp⟩
  | element form made marked trailing =>
    refine ⟨made, fun text htext => ?_, fun text htext => ?_⟩
    · rcases marked with rfl | rfl
      · cases htext
      · obtain rfl : "&" = text := by simpa using htext
        exact Node.lacks_leaf.mpr hmarker
    · exact Node.lacks_leaf.mpr (trailing text htext)

/-- A change of elements that keeps forms, comments and a property keeps what items are made of. -/
theorem Made.onto {P : Node → Prop} {Q : String → Prop} {f : Node → Node} (hf : SparesComments f)
    (hform : ∀ n, (f n).isForm = n.isForm) (hp : ∀ n, P n → P (f n)) {i : Item} (h : i.Made P Q) :
    (i.onto f).Made P Q := by
  cases h with
  | comment comment =>
    rw [hf.onto_comment rfl]
    exact .comment comment
  | element form made marked trailing =>
    exact .element ((hform _).trans form) (hp _ made) marked trailing

section

variable {P : Node → Prop} (hspace : P (.space " ")) (hnewline : P (.newline "\n"))

include hspace hnewline

/-- What holds of the parts of an item and of trivia holds of its nodes. -/
theorem forall_nodes {i : Item} (helement : P i.element)
    (hmarker : ∀ text ∈ i.marker, P (.atom text))
    (hcomment : ∀ text ∈ i.comment, P (.comment text)) : ∀ n ∈ i.nodes, P n := by
  intro n hn
  unfold nodes at hn
  rcases List.mem_append.mp hn with hn | hn
  · split at hn
    · rename_i text heq
      simp only [List.mem_cons, List.not_mem_nil, or_false] at hn
      rcases hn with rfl | rfl
      · exact hmarker text heq
      · exact hspace
    · cases hn
  · rcases List.mem_cons.mp hn with rfl | hn
    · exact helement
    · repeat' split at hn
      all_goals simp only [List.mem_cons, List.not_mem_nil, or_false] at hn
      · subst hn
        exact hnewline
      · rename_i text heq
        rcases hn with rfl | rfl | rfl
        · exact hspace
        · exact hcomment text heq
        · exact hnewline

/-- What holds of the parts of items and of trivia holds of items that are written out. -/
theorem forall_ungroup {items : List Item}
    (h : ∀ i ∈ items, P i.element ∧ (∀ text ∈ i.marker, P (.atom text)) ∧
      ∀ text ∈ i.comment, P (.comment text)) :
    ∀ n ∈ ungroup items, P n := by
  have hnodes : ∀ i ∈ items, ∀ n ∈ i.nodes, P n := by
    intro i hi
    obtain ⟨helement, hmarker, hcomment⟩ := h i hi
    exact forall_nodes hspace hnewline helement hmarker hcomment
  have hseparator : ∀ i : Item, P i.separator := by
    intro i
    unfold separator
    split
    · exact hnewline
    · exact hspace
  suffices hall : ∀ (items : List Item) (lineOpen : Bool), (∀ i ∈ items, ∀ n ∈ i.nodes, P n) →
      ∀ n ∈ ungroupFrom lineOpen items, P n from hall items false hnodes
  intro items
  induction items with
  | nil => rintro _ _ n ⟨⟩
  | cons i items ih =>
    intro lineOpen hnodes n hn
    obtain ⟨hi, hrest⟩ := List.forall_mem_cons.mp hnodes
    rw [ungroupFrom] at hn
    rcases List.mem_append.mp hn with hn | hn
    · rcases List.mem_append.mp hn with hn | hn
      · split at hn
        · rw [List.mem_singleton.mp hn]
          exact hseparator i
        · cases hn
      · exact hi n hn
    · exact ih _ hrest n hn

end

end Item

/-! ## Single lines -/

namespace Node

/-- On a single line only the elements have comments. -/
theorem commentTextsAll_inline {items : List Item}
    (h : ∀ i ∈ items, i.element.commentTexts = []) :
    commentTextsAll (Item.inline items) = [] :=
  List.flatMap_eq_nil_iff.mpr
    (Item.forall_inline (P := fun n => n.commentTexts = []) (commentTexts_noise rfl)
      (fun _ => rfl) h)

/-- **Single lines.**  A node without comments has none on a single line. -/
theorem commentTexts_flatten {n : Node} (h : n.commentTexts = []) :
    n.flatten.commentTexts = [] := by
  revert h
  refine Layout.item_induction
    (P := fun n => n.commentTexts = [] → n.flatten.commentTexts = []) ?_ ?_ ?_ ?_ ?_ n
  · exact fun _ _ h => h
  · intro b cs ih h
    cases hb : b.isCollection with
    | false =>
      rw [flatten, if_neg (Bool.eq_false_iff.mp hb)]
      exact h
    | true =>
      -- There are no comments among the items, and none in their elements.
      have hall := tells_commentTexts.group cs
      rw [commentTexts_branch] at h
      rw [show cs.flatMap commentTexts = [] from h, List.nil_perm, List.append_eq_nil_iff] at hall
      rw [flatten_collection hb, inward_flatten.group, commentTexts_branch]
      refine commentTextsAll_inline fun j hj => ?_
      obtain ⟨i, hi, rfl⟩ := List.mem_map.mp hj
      refine ih i hi ?_
      cases hc : i.isComment with
      | true =>
        have hmem : i.element.text ∈ Item.comments (Item.group cs) :=
          List.mem_flatMap.mpr ⟨i, hi, by simp [Item.commentTexts, hc]⟩
        rw [hall.1] at hmem
        cases hmem
      | false =>
        have hheld := List.flatMap_eq_nil_iff.mp hall.2 _ (Item.core_mem hi hc)
        exact (List.append_eq_nil_iff.mp hheld).2
  · exact fun m n ih h => ih h
  · intro m t ihm iht h
    rw [commentTexts_annotated, List.append_eq_nil_iff] at h
    rw [flatten, commentTexts_annotated, ihm h.1, iht h.2]
    rfl
  · exact fun h => h

end Node

/-- A change that keeps the comments of each node keeps those of all items. -/
theorem SparesComments.allComments {f : Node → Node} (hf : SparesComments f)
    (h : ∀ n, (f n).commentTexts.Perm n.commentTexts) (items : List Item) :
    (Item.allComments (items.map (Item.onto f))).Perm (Item.allComments items) := by
  have hone : ∀ i : Item, (i.onto f).allTexts.Perm i.allTexts := by
    intro i
    have hi : (i.onto f).isComment = i.isComment := hf.isComment i.element
    rw [Item.allTexts, Item.allTexts, hi]
    exact (h i.element).append_right _
  induction items with
  | nil => exact .refl _
  | cons i items ih => exact (hone i).append ih

/-! ## Blocks -/

namespace Namespace

/-- Blocks with their elements changed are the items with their elements changed. -/
theorem cutFrom_mapElement {f : Node → Node} (hf : SparesComments f) (items : List Item) :
    ∀ pending : List Item,
      ((Block.cutFrom pending items).1.map (Block.mapElement f)).flatMap Block.items ++
          (Block.cutFrom pending items).2 =
        pending ++ items.map (Item.onto f) := by
  induction items with
  | nil => intro pending; simp [Block.cutFrom]
  | cons i items ih =>
    intro pending
    cases hi : i.isComment with
    | true =>
      -- A comment waits for the element behind it.
      rw [Block.cutFrom, if_pos hi, ih, List.map_cons, hf.onto_comment hi, List.append_assoc]
      rfl
    | false =>
      rw [Block.cutFrom, if_neg (Bool.eq_false_iff.mp hi)]
      have hrest := ih []
      simp only [List.map_cons, List.flatMap_cons, List.append_assoc, hrest]
      simp [Block.items, Block.mapElement, Item.onto]

/-! ## Entries and clauses -/

/-- What an entry becomes: it stays, it gets another bracket, an atom goes into one, or an import is
    taken apart. -/
theorem entry_cases (kind : ClauseKind) (n : Node) :
    kind.entry n = n ∨
    (∃ b b' cs, n = .branch b cs ∧ b'.isCollection = true ∧ kind.entry n = .branch b' cs) ∨
    (∃ text, n = .atom text ∧ kind.entry n = .vector [n]) ∨
    ∃ text package name, kind = .imports ∧ n = .atom text ∧
      kind.entry n = .list [.atom package, .space " ", .atom name] := by
  generalize hentry : kind.entry n = m
  cases kind with
  | other => exact .inl hentry.symm
  | requires =>
    -- A name goes into a vector, and so does a list, unless it holds libraries under a common name.
    have hentry : requireEntry n = m := hentry
    unfold requireEntry at hentry
    split at hentry
    · split at hentry
      · exact .inl hentry.symm
      · exact .inr (.inr (.inl ⟨_, rfl, hentry.symm⟩))
    · repeat' split at hentry
      · exact .inr (.inl ⟨_, _, _, rfl, rfl, hentry.symm⟩)
      · exact .inl hentry.symm
      · exact .inr (.inl ⟨_, _, _, rfl, rfl, hentry.symm⟩)
    · exact .inl hentry.symm
  | imports =>
    -- A vector is turned into a list, and a name taken apart at its last dot.
    have hentry : importEntry n = m := hentry
    unfold importEntry at hentry
    split at hentry
    · exact .inr (.inl ⟨_, _, _, rfl, rfl, hentry.symm⟩)
    · split at hentry
      · exact .inr (.inr (.inr ⟨_, _, _, rfl, rfl, hentry.symm⟩))
      · exact .inl hentry.symm
    · exact .inl hentry.symm

/-- Bringing an entry into canonical form leaves comments alone. -/
theorem spares_entry (kind : ClauseKind) : SparesComments kind.entry := by
  constructor
  · intro text
    cases kind <;> rfl
  · intro n
    rcases entry_cases kind n with h | ⟨b, b', cs, rfl, -, h⟩ | ⟨text, rfl, h⟩ |
      ⟨_, _, _, -, rfl, h⟩ <;> rw [h] <;> rfl

theorem isForm_entry (kind : ClauseKind) (n : Node) : (kind.entry n).isForm = n.isForm := by
  rcases entry_cases kind n with h | ⟨b, b', cs, rfl, -, h⟩ | ⟨text, rfl, h⟩ |
    ⟨_, _, _, -, rfl, h⟩ <;> rw [h] <;> rfl

/-- An entry keeps its comments: what is taken apart is a word. -/
theorem commentTexts_entry (kind : ClauseKind) (n : Node) :
    (kind.entry n).commentTexts = n.commentTexts := by
  rcases entry_cases kind n with h | ⟨b, b', cs, rfl, -, h⟩ | ⟨text, rfl, h⟩ | ⟨_, _, _, -, rfl, h⟩
  · rw [h]
  · rw [h, Node.commentTexts_branch, Node.commentTexts_branch]
  · rw [h, Node.commentTexts_branch]
    rfl
  · rw [h, Node.commentTexts_branch]
    rfl

/-- The parts that an import is taken apart into are made of its characters. -/
theorem parts_of_import {text package name : String}
    (h : importEntry (.atom text) = .list [.atom package, .space " ", .atom name]) :
    package.toList ⊆ text.toList ∧ name.toList ⊆ text.toList := by
  unfold importEntry at h
  split at h
  · rename_i hnode
    cases hnode
  · rename_i hnode
    cases hnode
    split at h
    · rename_i hcond
      have hdot : '.' ∈ text.toList := by
        simp only [Bool.and_eq_true, decide_eq_true_eq] at hcond
        exact hcond.1.1
      have hsplit := splitLastDot_append hdot
      simp only [Node.branch.injEq, List.cons.injEq, Node.leaf.injEq, true_and, and_true] at h
      obtain ⟨rfl, rfl⟩ := h
      rw [String.toList_ofList, String.toList_ofList]
      generalize splitLastDot text.toList = parts at hsplit
      rw [← hsplit]
      exact ⟨List.subset_append_left _ _, List.subset_append_of_subset_right _
        (List.subset_cons_self _ _)⟩
    · cases h
  · rename_i hatom
    exact absurd rfl (hatom text)

/-- **Entries keep what they lack.** -/
theorem lacks_entry {lacked : Node → Bool} (hlacked : Layout.Foreign lacked) (kind : ClauseKind)
    {n : Node} (h : n.lacks lacked = true) : (kind.entry n).lacks lacked = true := by
  rcases entry_cases kind n with hn | ⟨b, b', cs, rfl, hb, hn⟩ | ⟨text, rfl, hn⟩ |
    ⟨text, package, name, rfl, rfl, hn⟩
  · rw [hn]
    exact h
  · rw [hn]
    exact Node.lacks_branch.mpr ⟨hlacked.branch cs hb, (Node.lacks_branch.mp h).2⟩
  · rw [hn]
    exact Node.lacks_branch.mpr ⟨hlacked.branch _ rfl, by simpa using h⟩
  · obtain ⟨hpackage, hname⟩ := parts_of_import hn
    have hatom : lacked (.atom text) = false := Node.lacks_leaf.mp h
    rw [hn]
    refine Node.lacks_branch.mpr ⟨hlacked.branch _ rfl, ?_⟩
    simp [Node.lacks_leaf, hlacked.part hpackage hatom, hlacked.part hname hatom, hlacked.space]

/-- The items of a clause in canonical order are its items with their entries in canonical form. -/
theorem clauseItems_perm (kind : ClauseKind) (leading : List Item) (head : Option Item)
    (entries : List Item) :
    (clauseItems kind leading head entries).Perm
      (leading ++ head.toList ++ entries.map (Item.onto kind.entry)) := by
  have hsort := List.mergeSort_perm ((Block.cut entries).1.map (Block.mapElement kind.entry))
    fun a b => a.sortKey ≤ b.sortKey
  have hcut : _ = entries.map (Item.onto kind.entry) :=
    cutFrom_mapElement (spares_entry kind) entries []
  rw [← hcut, clauseItems, ← List.append_assoc]
  exact ((hsort.flatMap_right Block.items).append_left _).append_right _

theorem spares_normalizeClause : SparesComments normalizeClause := by
  constructor
  · exact fun text => rfl
  · intro n
    unfold normalizeClause
    repeat' split
    all_goals rfl

/-- What is no clause stays as it is. -/
theorem normalizeClause_of_none {n : Node} (h : clauseKind? n = none) : normalizeClause n = n := by
  unfold normalizeClause
  rw [h]

/-- A clause of another kind stays as it is. -/
theorem normalizeClause_of_other {n : Node} (h : clauseKind? n = some .other) :
    normalizeClause n = n := by
  unfold normalizeClause
  rw [h]

/-- A clause in canonical order: it is as it was, or its items are in canonical order. -/
theorem normalizeClause_cases (n : Node) :
    normalizeClause n = n ∨
      ∃ cs kind leading head entries, n = .list cs ∧
        Item.splitHead (Item.group cs) = (leading, head, entries) ∧
        normalizeClause n = .list (Item.ungroup (clauseItems kind leading head entries)) := by
  cases hkind : clauseKind? n with
  | none => exact .inl (normalizeClause_of_none hkind)
  | some kind =>
    obtain ⟨cs, rfl⟩ := Node.list_of_clause hkind
    by_cases hother : kind = .other
    · subst hother
      left
      unfold normalizeClause
      rw [hkind]
    · exact .inr ⟨cs, kind, _, _, _, rfl, rfl, normalizeClause_eq hkind hother rfl⟩

/-- **Clauses keep their comments.** -/
theorem commentTexts_normalizeClause (n : Node) :
    (normalizeClause n).commentTexts.Perm n.commentTexts := by
  rcases normalizeClause_cases n with h | ⟨cs, kind, leading, head, entries, rfl, hsplit, h⟩
  · rw [h]
  · obtain ⟨-, -, hitems, -⟩ := Item.splitHead_spec hsplit
    rw [h, Node.commentTexts_branch, Node.commentTexts_branch, Item.commentTextsAll_ungroup]
    refine (Item.allComments_perm (clauseItems_perm kind leading head entries)).trans ?_
    refine .trans ?_ (Item.allComments_group cs)
    rw [hitems, ← List.append_assoc, Item.allComments_append (leading ++ head.toList),
      Item.allComments_append (leading ++ head.toList)]
    exact ((spares_entry kind).allComments (fun n => .of_eq (commentTexts_entry kind n))
      entries).append_left _

theorem isForm_normalizeClause (n : Node) : (normalizeClause n).isForm = n.isForm := by
  rcases normalizeClause_cases n with h | ⟨cs, kind, leading, head, entries, rfl, -, h⟩ <;> rw [h]
  rfl

/-- **Clauses keep what they lack.** -/
theorem lacks_normalizeClause {lacked : Node → Bool} (hlacked : Layout.Foreign lacked) {n : Node}
    (hn : n.lacks lacked = true) : (normalizeClause n).lacks lacked = true := by
  rcases normalizeClause_cases n with h | ⟨cs, kind, leading, head, entries, rfl, hsplit, h⟩
  · rw [h]
    exact hn
  · obtain ⟨-, -, hitems, -⟩ := Item.splitHead_spec hsplit
    have hgroup := hlacked.made_group (Node.lacks_branch.mp hn).2
    rw [hitems, ← List.append_assoc] at hgroup
    obtain ⟨hfront, hentries⟩ := List.forall_mem_append.mp hgroup
    have hmade : ∀ i ∈ clauseItems kind leading head entries,
        i.Made (fun n => n.lacks lacked = true) fun text => lacked (.comment text) = false := by
      intro i hi
      rw [(clauseItems_perm kind leading head entries).mem_iff] at hi
      rcases List.mem_append.mp hi with hi | hi
      · exact hfront i hi
      · obtain ⟨j, hj, rfl⟩ := List.mem_map.mp hi
        exact (hentries j hj).onto (P := fun n => n.lacks lacked = true) (spares_entry kind)
          (isForm_entry kind) fun _ => lacks_entry hlacked kind
    have hspace : (Node.space " ").lacks lacked = true := Node.lacks_leaf.mpr hlacked.space
    have hnewline : (Node.newline "\n").lacks lacked = true := Node.lacks_leaf.mpr hlacked.newline
    rw [h]
    exact Node.lacks_branch.mpr ⟨hlacked.branch _ rfl,
      Item.forall_ungroup (P := fun n => n.lacks lacked = true) hspace hnewline
        fun i hi => (hmade i hi).lacks hlacked.marker⟩

/-! ## Declarations -/

/-- Blocks are given places; apart from that, only clauses change. -/
theorem rankBlocks_snd (blocks : List Block) (seen : Bool) :
    (rankBlocks seen blocks).map Prod.snd = blocks.map (Block.mapElement normalizeClause) := by
  induction blocks generalizing seen with
  | nil => rfl
  | cons b blocks ih =>
    rw [rankBlocks]
    cases hkind : clauseKind? b.item.element with
    | some kind => simp only [List.map_cons, ih]
    | none =>
      have hsame : b.mapElement normalizeClause = b := by
        rw [Block.mapElement, normalizeClause_of_none hkind]
      simp only [List.map_cons, ih, hsame]

/-- **Declarations are put in another order.**  Apart from it, only clauses change. -/
theorem normalizeDeclarations_perm (items : List Item) :
    (normalizeDeclarations items).Perm (items.map (Item.onto normalizeClause)) := by
  have hsort := List.mergeSort_perm (rankBlocks false (Block.cut items).1) fun a b => a.1 ≤ b.1
  have hcut : _ = items.map (Item.onto normalizeClause) :=
    cutFrom_mapElement spares_normalizeClause items []
  rw [← hcut, normalizeDeclarations]
  refine .append_right _ ((hsort.flatMap_right _).trans (.of_eq ?_))
  rw [← rankBlocks_snd _ false, List.flatMap_map]
  rfl

/-- **Declarations keep their comments.** -/
theorem allComments_normalizeDeclarations (items : List Item) :
    (Item.allComments (normalizeDeclarations items)).Perm (Item.allComments items) :=
  (Item.allComments_perm (normalizeDeclarations_perm items)).trans
    (spares_normalizeClause.allComments commentTexts_normalizeClause items)

/-- **Declarations keep what they lack.** -/
theorem made_normalizeDeclarations {lacked : Node → Bool} (hlacked : Layout.Foreign lacked)
    {items : List Item} {Q : String → Prop}
    (h : ∀ i ∈ items, i.Made (fun n => n.lacks lacked = true) Q) :
    ∀ i ∈ normalizeDeclarations items, i.Made (fun n => n.lacks lacked = true) Q := by
  intro i hi
  rw [(normalizeDeclarations_perm items).mem_iff] at hi
  obtain ⟨j, hj, rfl⟩ := List.mem_map.mp hi
  exact (h j hj).onto (P := fun n => n.lacks lacked = true) spares_normalizeClause
    isForm_normalizeClause fun _ => lacks_normalizeClause hlacked

end Namespace

end CljTidy
