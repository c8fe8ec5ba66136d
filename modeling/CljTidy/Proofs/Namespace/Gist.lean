/-
  Namespace declarations up to their gist.

  Canonical order rewrites clauses and sorts their entries by their text on a single line.  All of
  it can be told from the gist: the single line of a node is that of its gist (`text_flatten_gist`),
  the gist of a clause is a clause of the same kind (`clauseKind_gist`), and the gist of the
  declarations in canonical order is found from the gists of the declarations
  (`normalizeDeclarations_gist`).
-/
import CljTidy.Proofs.Layout.Plan
import CljTidy.Proofs.Node.Gist

namespace CljTidy

/-! ## Single lines -/

namespace Node

/-- Nodes in a row are put on a line one by one. -/
theorem flattenAll_eq (ns : List Node) : flattenAll ns = ns.map flatten := by
  induction ns with
  | nil => rfl
  | cons n ns ih => rw [flattenAll, ih, List.map_cons]

/-- A collection on a line is its items on a line. -/
theorem flatten_collection {b : Bracket} (h : b.isCollection = true) (cs : List Node) :
    (branch b cs).flatten = .branch b (Item.inline (Item.group (cs.map flatten))) := by
  rw [flatten, if_pos h, flattenAll_eq]

/-- From outside nothing changes. -/
theorem face_flatten (n : Node) : n.flatten.face = n.face := by
  induction n using Node.induction with
  | leaf kind text => rfl
  | branch b cs =>
    rw [flatten]
    split <;> rfl
  | wrap m n ih => rw [flatten, face_wrap, ih, face_wrap]
  | annotated m t => rfl
  | unknown => rfl

/-- A node on a single line looks the same from outside. -/
theorem inward_flatten : Inward flatten := ⟨fun _ _ => rfl, face_flatten, fun _ => rfl⟩

/-- A mark that joins another is written in front, like any other. -/
theorem text_flatten_over (m : Mark) (n : Node) :
    (m.over n).flatten.text = m.spelling ++ n.flatten.text := by
  unfold Mark.over
  split
  · exact (splicing_append _).symm
  · rfl

/-- The text of items on a line depends on the texts of the elements and on the markers. -/
theorem text_inline {f g : Item → Item} {items : List Item}
    (h : ∀ i ∈ items, (f i).element.text = (g i).element.text ∧ (f i).marker = (g i).marker) :
    textAll (Item.inline (items.map f)) = textAll (Item.inline (items.map g)) := by
  have hnodes : ∀ i ∈ items, textAll (f i).inlineNodes = textAll (g i).inlineNodes := by
    intro i hi
    obtain ⟨htext, hmarker⟩ := h i hi
    simp only [Item.inlineNodes, textAll_append, textAll, htext, hmarker]
  clear h
  fun_induction Item.inline items with
  | case1 => rfl
  | case2 i => exact hnodes i (List.mem_singleton.mpr rfl)
  | case3 i items hne ih =>
    obtain ⟨j, rest, rfl⟩ := List.exists_cons_of_ne_nil hne
    obtain ⟨hi, hrest⟩ := List.forall_mem_cons.mp hnodes
    have htail := ih hrest
    simp only [List.map_cons, Item.inline, textAll_append, textAll] at htail ⊢
    rw [hi, htail]

/-- **Single lines.**  A node and its gist are the same on a single line. -/
theorem text_flatten_gist (n : Node) : n.gist.flatten.text = n.flatten.text := by
  refine Layout.item_induction (P := fun n => n.gist.flatten.text = n.flatten.text)
    ?_ ?_ ?_ ?_ ?_ n
  · exact fun kind text => rfl
  · intro b cs ih
    cases hb : b.isCollection with
    | false => rw [gist_branch hb]
    | true =>
      rw [gist_collection hb, flatten_collection hb, flatten_collection hb, inward_flatten.group,
        inward_flatten.group, group_gists, List.map_map]
      simp only [text]
      rw [text_inline (f := Item.onto flatten ∘ Item.onto gist) (g := Item.onto flatten)
        fun i hi => ⟨ih i hi, rfl⟩]
  · intro m n ih
    rw [gist, text_flatten_over, ih]
    rfl
  · intro m t ihm iht
    simp only [gist, flatten, text, ihm, iht]
  · rfl

/-- A mark has no comment. -/
theorem containsComment_over (m : Mark) (n : Node) :
    (m.over n).containsComment = n.containsComment := by
  unfold Mark.over
  split <;> rfl

/-- Leaving trivia out, or line breaks that say nothing, does not matter to what trivia does not
    have. -/
theorem any_sift {p : Node → Bool} (hp : ∀ n : Node, n.isNoise = true → p n = false)
    (broken : Bool) (ns : List Node) : (sift broken ns).any p = ns.any p := by
  induction ns generalizing broken with
  | nil => rfl
  | cons n ns ih =>
    rw [List.any_cons]
    rcases n.noise_or_comment_or_form with hn | ⟨text, rfl⟩ | hn
    · rw [sift_noise hn, ih, hp n hn, Bool.false_or]
    · rw [sift_comment, List.any_append, List.any_cons, ih]
      cases broken with
      | true => rw [if_pos rfl, List.any_cons, hp _ rfl]; rfl
      | false => rfl
    · rw [sift_form hn, List.any_cons, ih]

/-- The gist has a comment exactly if the node has one. -/
theorem containsComment_gist (n : Node) : n.gist.containsComment = n.containsComment := by
  induction n using Node.induction with
  | leaf kind text => rfl
  | branch b cs ih =>
    cases hb : b.isCollection with
    | false => rw [gist_branch hb]
    | true =>
      have hnoise : ∀ n : Node, n.isNoise = true → n.containsComment = false := by
        intro n hn
        obtain ⟨kind, text, rfl⟩ := leaf_of_noise hn
        cases kind <;> first | rfl | cases hn
      rw [gist_collection hb, containsComment, containsComment, anyContainsComment_eq,
        anyContainsComment_eq, gists, any_sift hnoise, List.any_map, Bool.eq_iff_iff,
        List.any_eq_true, List.any_eq_true]
      exact exists_congr fun c => and_congr_right fun hc => by rw [Function.comp_apply, ih c hc]
  | wrap m n ih => rw [gist, containsComment_over, ih, containsComment]
  | annotated m t ihm iht => rw [gist, containsComment, ihm, iht, containsComment]
  | unknown => rfl

end Node

/-! ## Clauses -/

namespace Node

/-- A keyword can be told from the gist, -/
theorem isKeyword_gist (n : Node) : n.gist.isKeyword = n.isKeyword := by
  have hface : ∀ n : Node, n.face.isKeyword = n.isKeyword :=
    view_face (fun kind _ => by cases kind <;> rfl) (fun _ _ => rfl) (fun _ _ => rfl)
      fun _ _ => rfl
  rw [← hface, face_gist, hface]

/-- A keyword is a leaf. -/
theorem leaf_of_keyword {n : Node} (h : n.isKeyword = true) : ∃ kind text, n = .leaf kind text := by
  cases n with
  | leaf kind text => exact ⟨kind, text, rfl⟩
  | _ => cases h

/-- and it is its own. -/
theorem gist_of_keyword {n : Node} (h : n.isKeyword = true) : n.gist = n := by
  obtain ⟨kind, text, rfl⟩ := leaf_of_keyword h
  rfl

/-- The keyword of a clause can be told from the gist, -/
theorem clauseKeyword_gist (n : Node) :
    Namespace.clauseKeyword? n.gist = Namespace.clauseKeyword? n := by
  cases n with
  | branch b cs =>
    cases b with
    | list =>
      rw [gist_collection rfl, Namespace.clauseKeyword?, Namespace.clauseKeyword?, group_gists]
      rcases hsplit : Item.splitHead (Item.group cs) with ⟨leading, _ | head, rest⟩
      · rw [inward_gist.splitHead hsplit]
        rfl
      · rw [inward_gist.splitHead hsplit]
        simp only [Option.map_some, Item.onto, isKeyword_gist]
        split
        · rename_i hkey
          rw [gist_of_keyword hkey]
        · rfl
    | _ => rfl
  | wrap m n =>
    obtain ⟨m', n', h⟩ := over_eq_wrap m n.gist
    rw [gist, h]
    rfl
  | _ => rfl

/-- The gist of a clause is a clause of its kind. -/
theorem clauseKind_gist (n : Node) : Namespace.clauseKind? n.gist = Namespace.clauseKind? n := by
  rw [Namespace.clauseKind?, clauseKeyword_gist, Namespace.clauseKind?]

/-- A clause is a list. -/
theorem list_of_clause {n : Node} {kind : Namespace.ClauseKind}
    (h : Namespace.clauseKind? n = some kind) : ∃ cs, n = .list cs := by
  cases n with
  | branch b cs =>
    cases b with
    | list => exact ⟨cs, rfl⟩
    | _ => cases h
  | _ => cases h

end Node

namespace Layout

/-- and so can the level that canonical order may add. -/
theorem clauseLevel_gist (n : Node) : clauseLevel n.gist = clauseLevel n := by
  cases hkind : Namespace.clauseKind? n with
  | none =>
    have hkind' := (n.clauseKind_gist).trans hkind
    simp only [clauseLevel, hkind, hkind']
  | some kind =>
    obtain ⟨cs, rfl⟩ := Node.list_of_clause hkind
    have hkind' := ((Node.list cs).clauseKind_gist).trans hkind
    rw [Node.gist_collection rfl] at hkind' ⊢
    have hentries : (Item.splitHead (Item.group (Node.gists cs))).2.2.isEmpty =
        (Item.splitHead (Item.group cs)).2.2.isEmpty := by
      rw [Node.group_gists, Node.inward_gist.splitHead rfl]
      exact List.isEmpty_map
    simp only [clauseLevel, hkind, hkind']
    cases kind <;> simp only [hentries]

/-- The gist is not deeper. -/
theorem rank_gist (n : Node) : rank n.gist ≤ rank n := by
  induction n using Node.induction with
  | leaf kind text => exact Nat.le_refl _
  | branch b cs ih =>
    cases hb : b.isCollection with
    | false => exact Nat.le_of_eq (congrArg rank (Node.gist_branch hb cs))
    | true =>
      rw [Node.gist_collection hb, rank, rank]
      refine Nat.succ_le_succ (rankAll_le fun n hn => ?_)
      rw [Node.gists] at hn
      rcases Node.mem_sift hn with hn | rfl
      · obtain ⟨c, hc, rfl⟩ := List.mem_map.mp hn
        refine Nat.le_trans ?_ (weight_le_rankAll hc)
        rw [weight, weight, clauseLevel_gist]
        exact Nat.add_le_add_right (ih c hc) _
      · exact Nat.zero_le _
  | wrap m n ih =>
    have hover : ∀ x : Node, rank (m.over x) = rank x := by
      intro x
      unfold Mark.over
      split <;> rfl
    rw [Node.gist, hover]
    exact ih
  | annotated m t ihm iht =>
    simp only [Node.gist, rank]
    omega
  | unknown => exact Nat.le_refl _

/-- So the gist is not heavier, either. -/
theorem weight_gist (n : Node) : weight n.gist ≤ weight n := by
  rw [weight, weight, clauseLevel_gist]
  exact Nat.add_le_add_right (rank_gist n) _

end Layout

/-! ## Items as nodes -/

section

variable {f : Node → Node} (hf : Inward f)

include hf

/-- An inward map makes no line breaks. -/
theorem Inward.isNewline (n : Node) : (f n).isNewline = n.isNewline := by
  have hface : ∀ n : Node, n.face.isNewline = n.isNewline :=
    Node.view_face (fun kind _ => by cases kind <;> rfl) (fun _ _ => rfl) (fun _ _ => rfl)
      fun _ _ => rfl
  rw [← hface, hf.face, hface]

/-- Items are written out as the changed nodes. -/
theorem Inward.ungroup (items : List Item) :
    Item.ungroup (items.map (Item.onto f)) = (Item.ungroup items).map f := by
  have hnodes : ∀ i : Item, (i.onto f).nodes = i.nodes.map f := by
    intro i
    have hcomment := hf.isComment_onto i
    obtain ⟨element, marker, comment⟩ := i
    simp only [Item.nodes, hcomment]
    cases (Item.mk element marker comment).isComment <;> cases marker <;> cases comment <;>
      simp [Item.onto, hf.leaf]
  have hopen : ∀ i : Item, (i.onto f).leavesLineOpen = i.leavesLineOpen := by
    intro i
    simp only [Item.leavesLineOpen, hf.isComment_onto]
    simp only [Item.onto, hf.isNewline]
  have hseparator : ∀ i : Item, (i.onto f).separator = f i.separator := by
    intro i
    simp only [Item.separator, hf.isComment_onto]
    split <;> exact (hf.leaf _ _).symm
  suffices h : ∀ (items : List Item) (lineOpen : Bool),
      Item.ungroupFrom lineOpen (items.map (Item.onto f)) =
        (Item.ungroupFrom lineOpen items).map f from h items false
  intro items
  induction items with
  | nil => exact fun _ => rfl
  | cons i items ih =>
    intro lineOpen
    simp only [List.map_cons, Item.ungroupFrom, hnodes, hopen, hseparator, ih, List.map_append]
    cases lineOpen <;> rfl

end

/-! ## Canonical order -/

namespace Namespace

/-- An entry in its canonical bracket, up to its gist. -/
theorem entry_gist (kind : ClauseKind) (n : Node) :
    (kind.entry n.gist).gist = (kind.entry n).gist := by
  have hover : ∀ (m : Mark) (x : Node), kind.entry (m.over x) = m.over x := by
    intro m x
    obtain ⟨m', x', h⟩ := Node.over_eq_wrap m x
    rw [h]
    cases kind <;> rfl
  cases n with
  | leaf k text => rfl
  | wrap m n =>
    have hwrap : kind.entry (.wrap m n) = .wrap m n := by cases kind <;> rfl
    rw [Node.gist, hover, hwrap, Node.gist_over, Node.gist_gist, Node.gist]
  | annotated m t =>
    have hannotated : ∀ m t : Node, kind.entry (.annotated m t) = .annotated m t := by
      cases kind <;> exact fun _ _ => rfl
    rw [hannotated, Node.gist, hannotated, ← Node.gist, Node.gist_gist]
  | unknown => rfl
  | branch b cs =>
    cases hb : b.isCollection with
    | false => rw [Node.gist_branch hb]
    | true =>
      have hbranch : ∀ b' : Bracket, b'.isCollection = true →
          (Node.branch b' (Node.gists cs)).gist = (Node.branch b' cs).gist := by
        intro b' hb'
        rw [Node.gist_collection hb', Node.gist_collection hb', Node.gists_gists]
      have hsame := hbranch b hb
      rw [Node.gist_collection hb]
      cases kind with
      | other => exact hsame
      | requires =>
        cases b with
        | list =>
          -- Whether the second element is a keyword can be told from outside.
          simp only [ClauseKind.entry, requireEntry, Node.group_gists,
            Node.inward_gist.elements]
          rcases Item.elements (Item.group cs) with _ | ⟨first, _ | ⟨second, more⟩⟩
          · exact hbranch .vector rfl
          · exact hbranch .vector rfl
          · simp only [List.map_cons, Item.onto, Node.isKeyword_gist]
            split
            · exact hbranch .vector rfl
            · exact hsame
        | _ => exact hsame
      | imports =>
        cases b with
        | vector => exact hbranch .list rfl
        | _ => exact hsame

/-- Cutting into blocks looks at items from outside only. -/
theorem cutFrom_onto {f : Node → Node} (hf : Inward f) (pending items : List Item) :
    Block.cutFrom pending (items.map (Item.onto f)) =
      ((Block.cutFrom pending items).1.map (Block.mapElement f),
        (Block.cutFrom pending items).2) := by
  induction items generalizing pending with
  | nil => rfl
  | cons i items ih =>
    rw [List.map_cons]
    cases hi : i.isComment with
    | true =>
      rw [hf.onto_comment hi, Block.cutFrom, Block.cutFrom, if_pos hi, if_pos hi, ih]
    | false =>
      have hi' : ¬ (i.onto f).isComment = true := by rw [hf.isComment_onto, hi]; rintro ⟨⟩
      rw [Block.cutFrom, Block.cutFrom, if_neg hi', if_neg (Bool.eq_false_iff.mp hi)]
      simp only [ih, List.map_cons]
      rfl

/-- The block with the gist of its element. -/
def Block.gist (block : Block) : Block := block.mapElement Node.gist

/-- Cutting the gists gives the gists of the blocks. -/
theorem cut_gist (items : List Item) :
    Block.cut (items.map (Item.onto Node.gist)) =
      ((Block.cut items).1.map Block.gist, (Block.cut items).2) :=
  cutFrom_onto Node.inward_gist [] items

/-- A block is sorted by its text on a single line. -/
theorem Block.sortKey_gist (block : Block) : block.gist.sortKey = block.sortKey :=
  Node.text_flatten_gist block.item.element

/-- Entries with the same gists are put in the same order. -/
theorem sorted_gist {xs ys : List Block} (h : xs.map Block.gist = ys.map Block.gist) :
    (xs.mergeSort fun a b => a.sortKey ≤ b.sortKey).map Block.gist =
      (ys.mergeSort fun a b => a.sortKey ≤ b.sortKey).map Block.gist := by
  have hsort : ∀ blocks : List Block,
      (blocks.mergeSort fun a b => a.sortKey ≤ b.sortKey).map Block.gist =
        (blocks.map Block.gist).mergeSort fun a b => a.sortKey ≤ b.sortKey := by
    intro blocks
    refine List.map_mergeSort fun a _ b _ => ?_
    rw [a.sortKey_gist, b.sortKey_gist]
  rw [hsort, h, hsort]

/-- Blocks with the same gists have items with the same gists. -/
theorem items_gist {xs ys : List Block} (h : xs.map Block.gist = ys.map Block.gist) :
    (xs.flatMap Block.items).map (Item.onto Node.gist) =
      (ys.flatMap Block.items).map (Item.onto Node.gist) := by
  have hitems : ∀ blocks : List Block, (blocks.flatMap Block.items).map (Item.onto Node.gist) =
      (blocks.map Block.gist).flatMap fun b =>
        b.comments.map (Item.onto Node.gist) ++ [b.item] := by
    intro blocks
    rw [List.map_flatMap, List.flatMap_map]
    congr 1
    funext b
    simp [Block.items, Block.gist, Block.mapElement, Item.onto]
  rw [hitems, h, hitems]

/-- The items of a clause in canonical order. -/
def clauseItems (kind : ClauseKind) (leading : List Item) (head : Option Item)
    (entries : List Item) : List Item :=
  leading ++ head.toList ++
    (((Block.cut entries).1.map (Block.mapElement kind.entry)).mergeSort fun a b =>
      a.sortKey ≤ b.sortKey).flatMap Block.items ++
    (Block.cut entries).2

/-- A clause in canonical order is its items in canonical order, written out. -/
theorem normalizeClause_eq {cs : List Node} {kind : ClauseKind}
    (hkind : clauseKind? (.list cs) = some kind) (hother : kind ≠ .other)
    {leading entries : List Item} {head : Option Item}
    (hsplit : Item.splitHead (Item.group cs) = (leading, head, entries)) :
    normalizeClause (.list cs) = .list (Item.ungroup (clauseItems kind leading head entries)) := by
  unfold normalizeClause
  rw [hkind]
  cases kind with
  | other => exact absurd rfl hother
  | requires => simp only [hsplit, clauseItems]
  | imports => simp only [hsplit, clauseItems]

/-- The items of a clause in canonical order, up to the gists of their elements. -/
theorem clauseItems_gist (kind : ClauseKind) (leading : List Item) (head : Option Item)
    (entries : List Item) :
    (clauseItems kind leading (head.map (Item.onto Node.gist))
        (entries.map (Item.onto Node.gist))).map (Item.onto Node.gist) =
      (clauseItems kind leading head entries).map (Item.onto Node.gist) := by
  have hhead : (head.map (Item.onto Node.gist)).toList.map (Item.onto Node.gist) =
      head.toList.map (Item.onto Node.gist) := by
    cases head with
    | none => rfl
    | some i => simp [Item.onto, Node.gist_gist]
  have hblocks : (((Block.cut entries).1.map Block.gist).map
        (Block.mapElement kind.entry)).map Block.gist =
      ((Block.cut entries).1.map (Block.mapElement kind.entry)).map Block.gist := by
    simp only [List.map_map]
    refine List.map_congr_left fun b _ => ?_
    simp only [Function.comp_apply, Block.gist, Block.mapElement, entry_gist]
  simp only [clauseItems, cut_gist, List.map_append, hhead]
  rw [items_gist (sorted_gist hblocks)]

/-- A clause in canonical order, up to its gist. -/
theorem normalizeClause_gist (n : Node) :
    (normalizeClause n.gist).gist = (normalizeClause n).gist := by
  cases hkind : clauseKind? n with
  | none =>
    have hkind' := n.clauseKind_gist.trans hkind
    simp only [normalizeClause, hkind, hkind', Node.gist_gist]
  | some kind =>
    obtain ⟨cs, rfl⟩ := Node.list_of_clause hkind
    have hkind' := ((Node.list cs).clauseKind_gist).trans hkind
    by_cases hother : kind = .other
    · subst hother
      simp only [normalizeClause, hkind, hkind', Node.gist_gist]
    rcases hsplit : Item.splitHead (Item.group cs) with ⟨leading, head, entries⟩
    have hsplit' := Node.inward_gist.splitHead hsplit
    rw [← Node.group_gists] at hsplit'
    rw [Node.gist_collection rfl] at hkind' ⊢
    rw [normalizeClause_eq hkind hother hsplit, normalizeClause_eq hkind' hother hsplit',
      Node.gist_collection rfl, Node.gist_collection rfl, Node.gists, Node.gists,
      ← Node.inward_gist.ungroup, ← Node.inward_gist.ungroup, clauseItems_gist]

/-- Blocks with their places, up to the gists of their elements. -/
theorem rankBlocks_gist (seen : Bool) (blocks : List Block) :
    (rankBlocks seen (blocks.map Block.gist)).map (Prod.map id Block.gist) =
      (rankBlocks seen blocks).map (Prod.map id Block.gist) := by
  induction blocks generalizing seen with
  | nil => rfl
  | cons b blocks ih =>
    have hkind : clauseKind? b.gist.item.element = clauseKind? b.item.element :=
      b.item.element.clauseKind_gist
    simp only [List.map_cons, rankBlocks, hkind]
    cases clauseKind? b.item.element with
    | none =>
      simp only [List.map_cons, ih]
      simp [Block.gist, Block.mapElement, Node.gist_gist]
    | some kind =>
      simp only [List.map_cons, ih]
      simp [Block.gist, Block.mapElement, normalizeClause_gist]

/-- **Declarations in canonical order can be told from their gists.** -/
theorem normalizeDeclarations_gist (items : List Item) :
    (normalizeDeclarations (items.map (Item.onto Node.gist))).map (Item.onto Node.gist) =
      (normalizeDeclarations items).map (Item.onto Node.gist) := by
  have hsort : ∀ ranked : List (Nat × Block),
      (ranked.mergeSort fun a b => a.1 ≤ b.1).map (Prod.map id Block.gist) =
        (ranked.map (Prod.map id Block.gist)).mergeSort fun a b => a.1 ≤ b.1 :=
    fun ranked => List.map_mergeSort fun _ _ _ _ => rfl
  have hsorted : (((rankBlocks false ((Block.cut items).1.map Block.gist)).mergeSort
        fun a b => a.1 ≤ b.1).map Prod.snd).map Block.gist =
      (((rankBlocks false (Block.cut items).1).mergeSort
        fun a b => a.1 ≤ b.1).map Prod.snd).map Block.gist := by
    have hsnd : ∀ ranked : List (Nat × Block), (ranked.map Prod.snd).map Block.gist =
        (ranked.map (Prod.map id Block.gist)).map Prod.snd := by
      intro ranked
      simp [List.map_map, Function.comp_def]
    rw [hsnd, hsnd, hsort, rankBlocks_gist, hsort]
  have hitems := items_gist hsorted
  simp only [List.flatMap_map] at hitems
  simp only [normalizeDeclarations, cut_gist, List.map_append]
  exact congrArg (· ++ _) hitems

end Namespace

end CljTidy
