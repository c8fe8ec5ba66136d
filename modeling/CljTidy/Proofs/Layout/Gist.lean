/-
  Layouts up to gist.

  A tree and its gist come out alike: with the same text, and the same comments leave them
  (`alike_gist`).  For a collection with a plan the plan is read off faces and the page off prints;
  a namespace declaration has no plan, but its declarations in canonical order have the same gists.
  The induction is over the rank, as canonical order makes elements of its own.  It follows that
  documents with the same gists are written with the same text (`text_document`).
-/
import CljTidy.Proofs.Layout.Declaration
import CljTidy.Proofs.Layout.Print
import CljTidy.Proofs.Layout.Readable
import CljTidy.Proofs.Namespace.Gist

namespace CljTidy.Layout

/-! ## Results that are alike -/

namespace Rendered

theorem Alike.refl (r : Rendered) : r.Alike r := ⟨rfl, rfl⟩

theorem Alike.trans {r s t : Rendered} (h : r.Alike s) (h' : s.Alike t) : r.Alike t :=
  ⟨h.node.trans h'.node, h.hoisted.trans h'.hoisted⟩

/-- Results that are alike have the same text. -/
theorem Alike.text {r s : Rendered} (h : r.Alike s) : r.node.text = s.node.text := by
  rw [← Node.text_print, h.node, Node.text_print]

theorem Alike.withLeading {r s : Rendered} (h : r.Alike s) (comments : List String) :
    (r.withLeading comments).Alike (s.withLeading comments) :=
  ⟨h.node, congrArg (comments ++ ·) h.hoisted⟩

/-- Collections with the same page in print are alike. -/
theorem Shows.alike {r s : Rendered} {b : Bracket} {p q : Page} (hr : r.Shows b p)
    (hs : s.Shows b q) (h : p.print = q.print) : r.Alike s := by
  have htext : Node.textAll p.children = Node.textAll q.children := by
    rw [← Page.text_print, h, Page.text_print]
  constructor
  · rw [hr.node, hs.node]
    refine Node.print_of_text rfl rfl ?_
    rw [Node.text, Node.text, htext]
  · have hleaving : p.print.leaving = q.print.leaving := congrArg Page.leaving h
    rw [hr.hoisted, hs.hoisted]
    exact hleaving

end Rendered

variable {table : Table}

/-! ## Marks and metadata -/

/-- A mark over forms that come out alike comes out alike. -/
theorem alike_wrap {m : Mark} {n n' : Node} {column : Int}
    (h : ((Mark.place m).lay (layout table) (column + m.width) n').Alike
      ((Mark.place m).lay (layout table) (column + m.width) n)) (place : Place) :
    (place.lay (layout table) column (.wrap m n')).Alike
      (place.lay (layout table) column (.wrap m n)) := by
  rw [lay_wrap, lay_wrap]
  refine ⟨Node.print_of_text rfl rfl ?_, h.hoisted⟩
  show m.spelling ++ _ = m.spelling ++ _
  rw [h.text]

/-- An unquote in front of a dereference comes out as the one mark it reads as. -/
theorem alike_over (place : Place) (column : Int) (m : Mark) (n : Node) :
    (place.lay (layout table) column (m.over n)).Alike
      (place.lay (layout table) column (.wrap m n)) := by
  unfold Mark.over
  split
  · rename_i n
    have hunquote : Mark.place .unquote = .plain := rfl
    have hcolumn : column + (Mark.unquoteSplicing.width : Int) =
        column + (Mark.unquote.width : Int) + (Mark.deref.width : Int) := by
      show column + 2 = column + 1 + 1
      omega
    simp only [lay_wrap, hcolumn]
    exact ⟨Node.print_of_text rfl rfl (Node.splicing_append _).symm, rfl⟩
  · exact .refl _

/-- So does metadata in front of its target, whose column is behind the text of the metadata. -/
theorem alike_annotated {m m' t t' : Node} {column : Int}
    (hm : (layout table (column + 1) m').Alike (layout table (column + 1) m))
    (ht : ∀ c, (layout table c t').Alike (layout table c t)) (place : Place) :
    (place.lay (layout table) column (.annotated m' t')).Alike
      (place.lay (layout table) column (.annotated m t)) := by
  rw [lay_annotated, lay_annotated]
  simp only [hm.text]
  have htarget := ht (endColumn (column + 1) (layout table (column + 1) m).node.text + 1)
  refine ⟨Node.print_of_text rfl rfl ?_, ?_⟩
  · simp only [Node.text, hm.text, htarget.text]
  · simp only [hm.hoisted, htarget.hoisted]

/-! ## Namespace declarations -/

/-- The print of the page of a declaration, up to gist: canonical order goes between. -/
theorem print_nsPage {lay : Lay} {head : Item} {rest : List Item}
    (hhead : Unmoved Node.gist lay head)
    (h : ∀ i ∈ Namespace.normalizeDeclarations rest ++
        Namespace.normalizeDeclarations (rest.map (Item.onto Node.gist)),
      Unmoved Node.gist lay i ∧ Unmoved Node.gist (nsClause lay) i)
    (column : Int) (leading : List Item) :
    (nsPage lay column leading (head.onto Node.gist) (rest.map (Item.onto Node.gist))).print =
      (nsPage lay column leading head rest).print := by
  obtain ⟨hthis, hother⟩ := List.forall_mem_append.mp h
  have hgist : (head.onto Node.gist).onto Node.gist = head.onto Node.gist := by
    simp only [Item.onto, Node.gist_gist]
  have hhead' : Unmoved Node.gist lay (head.onto Node.gist) := by
    intro _ c
    simp only [Item.onto, Node.gist_gist]
    exact .refl _
  have hleft := print_callPage Node.inward_gist.spares hhead' (fun i hi => (hother i hi).1)
    (fun i hi => (hother i hi).2) { arguments := 1, bodyColumn := some (column + 2) } column
  have hright := print_callPage Node.inward_gist.spares hhead (fun i hi => (hthis i hi).1)
    (fun i hi => (hthis i hi).2) { arguments := 1, bodyColumn := some (column + 2) } column
  rw [hgist, Namespace.normalizeDeclarations_gist, hright] at hleft
  exact congrArg (fun p : Page => { p with leaving := leadingComments leading ++ p.leaving })
    hleft.symm

/-- On a single line a node and its gist are alike, if they are alike where they have to be laid
    out. -/
theorem alike_flat {lay : Lay} {n : Node} (h : ∀ c, (lay c n.gist).Alike (lay c n)) (column : Int) :
    (flat lay column n.gist).Alike (flat lay column n) := by
  unfold flat
  rw [n.containsComment_gist]
  cases hc : n.containsComment with
  | true => exact h column
  | false =>
    have hcomment : n.isComment = false := by
      refine Bool.eq_false_iff.mpr fun h => ?_
      obtain ⟨text, rfl⟩ := Node.eq_comment h
      cases hc
    have hflat : ∀ m : Node, m.flatten.isComment = m.isComment := Node.inward_flatten.isComment
    refine ⟨Node.print_of_text ?_ ?_ n.text_flatten_gist, rfl⟩
    · exact (hflat _).trans ((Node.inward_gist.isComment n).trans hcomment)
    · exact (hflat _).trans hcomment

theorem nsClause_of_not_list {lay : Lay} {n : Node} (h : n.isList = false) (column : Int) :
    nsClause lay column n = lay column n := by
  cases n with
  | branch b cs =>
    cases b with
    | list => cases h
    | _ => rfl
  | _ => rfl

/-- A clause of a declaration, up to gist. -/
theorem alike_nsClause {lay : Lay} {n : Node} (h : ∀ c, (lay c n.gist).Alike (lay c n))
    (hitems : ∀ cs, n = .list cs → ∀ i ∈ Item.group cs, ∀ c,
      (lay c i.element.gist).Alike (lay c i.element)) (column : Int) :
    (nsClause lay column n.gist).Alike (nsClause lay column n) := by
  cases hlist : n.isList with
  | false =>
    have hlist' : n.gist.isList = false := by
      rw [← Node.isList_face, Node.face_gist, Node.isList_face, hlist]
    -- What is no list is no clause.
    rw [nsClause_of_not_list hlist, nsClause_of_not_list hlist']
    exact h column
  | true =>
    obtain ⟨cs, rfl⟩ := Node.eq_list hlist
    have hitems := hitems cs rfl
    have hflat := alike_flat h column
    rw [Node.gist_collection rfl] at h hflat ⊢
    rcases hsplit : Item.splitHead (Item.group cs) with ⟨leading, _ | head, entries⟩
    · have hsplit' := Node.inward_gist.splitHead hsplit
      rw [← Node.group_gists, Option.map_none] at hsplit'
      simp only [nsClause, hsplit, hsplit']
      exact h column
    · have hsplit' := Node.inward_gist.splitHead hsplit
      rw [← Node.group_gists, Option.map_some] at hsplit'
      -- The head of the gist is a keyword just if the head is; then both are the same one.
      have hkey : (head.onto Node.gist).element.isKeyword = head.element.isKeyword :=
        Node.isKeyword_gist _
      simp only [nsClause, hsplit, hsplit', hkey]
      by_cases hk : head.element.isKeyword = true
      · have htext : (head.onto Node.gist).element = head.element := Node.gist_of_keyword hk
        rw [if_pos hk, if_pos hk, htext]
        split
        · exact hflat
        · obtain ⟨-, hhead, hsame, -⟩ := Item.splitHead_spec hsplit
          rw [hsame] at hitems
          have hmem : ∀ i ∈ head :: entries, ∀ c, (lay c i.element.gist).Alike (lay c i.element) :=
            fun i hi => hitems i (List.mem_append_right _ hi)
          obtain ⟨hmoved, hentries⟩ := List.forall_mem_cons.mp hmem
          -- Entries go on single lines, on both sides.
          have hflats : ∀ i ∈ entries, Unmoved Node.gist (flat lay) i :=
            fun i hi _ c => alike_flat (hentries i hi) c
          have hprint := print_callPage Node.inward_gist.spares (fun _ => hmoved) hflats
            hflats { arguments := 1 } column
          have hshows := shows_call lay (flat lay) (flat lay) { arguments := 1 } column
            (hhead head rfl) entries
          have hshows' := shows_call lay (flat lay) (flat lay) { arguments := 1 } column
            ((Node.inward_gist.isComment_onto head).trans (hhead head rfl))
            (entries.map (Item.onto Node.gist))
          exact (hshows'.alike hshows hprint).withLeading _
      · rw [if_neg hk, if_neg hk]
        exact h column

/-! ## Trees -/

/-- A node and its gist come out alike, anywhere. -/
def AlikeGist (table : Table) (n : Node) : Prop :=
  ∀ (place : Place) (column : Int),
    (place.lay (layout table) column n.gist).Alike (place.lay (layout table) column n)

/-- An item whose element comes out like its gist does not move when it is replaced by it. -/
theorem AlikeGist.unmoved {i : Item} (h : AlikeGist table i.element) (place : Place) :
    Unmoved Node.gist (place.lay (layout table)) i :=
  fun _ column => h place column

/-- A collection, from what has a smaller rank. -/
theorem alikeGist_collection {b : Bracket} (hb : b.isCollection = true) {cs : List Node}
    (ih : ∀ n : Node, rank n ≤ rankAll cs → AlikeGist table n) :
    AlikeGist table (.branch b cs) := by
  intro place column
  rw [Node.gist_collection hb]
  have hrank : ∀ {i : Item}, i ∈ Item.group cs → AlikeGist table i.element :=
    fun hi => ih _ (rank_element hi)
  have hfaces : place.plan? table b (Item.group (Node.gists cs)) =
      place.plan? table b (Item.group cs) := by
    rw [← plan_faces, Node.group_gists, Node.inward_gist.faces, plan_faces]
  cases hplan : place.plan? table b (Item.group cs) with
  | some plan =>
    have hshows := shows_layout hb hplan column
    have hshows' := shows_layout hb (hfaces.trans hplan) column
    refine hshows'.alike hshows ?_
    rw [Node.group_gists]
    exact print_page Node.inward_gist (fun i hi place => (hrank hi).unmoved place) plan column b
  | none =>
    obtain ⟨rfl, hform, hlay⟩ := lay_of_no_plan hplan
    obtain ⟨-, -, hlay'⟩ := lay_of_no_plan (hfaces.trans hplan)
    obtain ⟨leading, head, rest, hsplit, hrule⟩ := ns_of_no_form hform
    have hsplit' := Node.inward_gist.splitHead hsplit
    rw [← Node.group_gists, Option.map_some] at hsplit'
    have hrule' : table.ruleFor? (head.onto Node.gist) = some .ns := by
      have hface : (head.onto Node.gist).face = head.face := by
        simp only [Item.face, Item.onto, Node.face_gist]
      rw [← ruleFor_face, hface, ruleFor_face, hrule]
    rw [hlay, hlay']
    refine (shows_ns hsplit' hrule' column).alike (shows_ns hsplit hrule column) ?_
    obtain ⟨-, -, hsame, -⟩ := Item.splitHead_spec hsplit
    have hmem : head ∈ Item.group cs := by rw [hsame]; simp
    have hwithin := (within_splitHead (within_group cs) hsplit).2.1
    have hwithin' : Within (rankAll cs) (rest.map (Item.onto Node.gist)) := by
      intro i hi
      obtain ⟨j, hj, rfl⟩ := List.mem_map.mp hi
      exact Nat.le_trans (weight_gist _) (hwithin j hj)
    refine print_nsPage ((hrank hmem).unmoved .plain) (fun i hi => ?_) column leading
    -- Canonical order makes elements of its own, but none that is deeper.
    have hbelow : rank i.element ≤ rankAll cs := by
      rcases List.mem_append.mp hi with hi | hi
      · exact Nat.le_of_lt_succ (below_normalizeDeclarations hwithin i hi)
      · exact Nat.le_of_lt_succ (below_normalizeDeclarations hwithin' i hi)
    have helement := ih _ hbelow
    refine ⟨helement.unmoved .plain, fun _ c => alike_nsClause (helement .plain) ?_ c⟩
    intro ds hds j hj
    have hdeep := rank_element hj
    rw [hds, rank] at hbelow
    exact ih _ (by omega) .plain

/-- **Layouts up to gist.**  A tree and its gist come out alike. -/
theorem alike_gist (table : Table) (n : Node) : AlikeGist table n := by
  refine rank_induction (P := AlikeGist table) ?_ ?_ ?_ ?_ ?_ n
  · exact fun _ _ _ _ => .refl _
  · intro b cs ih
    cases hb : b.isCollection with
    | false =>
      intro place column
      rw [Node.gist_branch hb]
      exact .refl _
    | true => exact alikeGist_collection hb ih
  · intro m n ih place column
    exact (alike_over place column m n.gist).trans (alike_wrap (ih _ _) place)
  · exact fun m t ihm iht place column => alike_annotated (ihm .plain _) (iht .plain) place
  · exact fun _ _ => .refl _

/-! ## Documents -/

/-- Spreading items is seen in print. -/
theorem print_spread (g : Gap) (items : List Item) :
    (spread g items).print = spread g (items.map Item.print) := by
  induction items generalizing g with
  | nil => rfl
  | cons i items ih => simp [spread, ih]

/-- The gists of the children make a document with the same text. -/
theorem text_gists (cs : List Node) :
    Node.textAll (documentNodes (Node.gists cs)) = Node.textAll (documentNodes cs) := by
  have hprint := print_settledAll Node.inward_gist.spares
    (fun i (_ : i ∈ Item.group cs) => (alike_gist .standard i.element).unmoved .plain) 0
  have hscript : (documentScript (layout .standard) (Item.group (Node.gists cs))).print =
      (documentScript (layout .standard) (Item.group cs)).print := by
    rw [documentScript, documentScript, print_spread, print_spread, Node.group_gists]
    exact congrArg (spread .none) hprint
  rw [documentNodes, documentNodes, ← Script.text_print, hscript, Script.text_print]

/-- **Documents up to gist.**  Documents with the same gists have the same text. -/
theorem text_document {cs ds : List Node} (h : Node.gists cs = Node.gists ds) :
    Node.textAll (documentNodes cs) = Node.textAll (documentNodes ds) := by
  rw [← text_gists cs, h, text_gists]

end CljTidy.Layout
