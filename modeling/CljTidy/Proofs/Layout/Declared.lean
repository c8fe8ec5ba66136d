/-
  Declarations that are laid out already.

  In canonical order the elements of a declaration are as reading builds them (`Untied`), and firm
  if they are steadfast (`firm_normalizeClause`).  They come out as clauses of their kinds, so the
  declaration that comes out is in order (`kinds_behind_head`); canonical order changes nothing of
  how its clauses are laid out, and they are steady.  So it is laid out as it stands, and nothing
  leaves it (`stays_declaration`); and it can be read (`readable_declaration`).
-/
import CljTidy.Proofs.Layout.Clause

namespace CljTidy

/-- If the node is a clause that imports, its entries are lists and vectors. -/
def Node.importsLists : Node → Bool
  | .list children =>
      Namespace.clauseKind? (.list children) != some .imports ||
        (Item.splitHead (Item.group children)).2.2.all fun i =>
          i.isComment || i.element.isList || i.element.isVector
  | _ => true

namespace Layout

open Namespace (ClauseKind Ordered kinds normalizeClause normalizeDeclarations clauseKind?)

/-! ## Elements in canonical order -/

/-- The node is as reading builds it, without unquoted dereferences, `&` and discards. -/
structure Untied (n : Node) : Prop where
  sound : n.Sound
  noDeref : n.lacks Node.unquotesDeref = true
  unbound : n.lacks Node.binds = true

namespace Untied

/-- An untied node in which no namespace is declared is clear. -/
theorem clear {n : Node} (h : Untied n) (hns : n.lacks Node.declaresNamespace = true) : Clear n :=
  ⟨⟨h.sound, hns, h.noDeref⟩, h.unbound⟩

theorem space : Untied (.space " ") := ⟨sound_space, rfl, rfl⟩

theorem newline : Untied (.newline "\n") := ⟨sound_newline, rfl, rfl⟩

theorem comment {text : String} (h : Comment.IsComment text.toList) : Untied (.comment text) :=
  ⟨sound_comment h, rfl, rfl⟩

/-- Untied nodes in brackets are untied. -/
theorem branch {b : Bracket} (hb : b.isCollection = true) {cs : List Node}
    (h : ∀ c ∈ cs, Untied c) : Untied (.branch b cs) :=
  ⟨.branch hb fun c hc => (h c hc).sound, Node.lacks_branch.mpr ⟨rfl, fun c hc => (h c hc).noDeref⟩,
    Node.lacks_branch.mpr ⟨rfl, fun c hc => (h c hc).unbound⟩⟩

/-- The children of an untied collection are untied. -/
theorem children {b : Bracket} {cs : List Node} (h : Untied (.branch b cs)) :
    ∀ c ∈ cs, Untied c := by
  obtain ⟨hsound, hderef, hunbound⟩ := h
  intro c hc
  cases hsound with
  | branch _ children =>
    exact ⟨children c hc, (Node.lacks_branch.mp hderef).2 c hc,
      (Node.lacks_branch.mp hunbound).2 c hc⟩

/-- The items of untied children are plain and made of untied forms. -/
theorem items {cs : List Node} (h : ∀ c ∈ cs, Untied c) :
    ∀ i ∈ Item.group cs, i.Plain ∧ i.Made Untied fun text => Comment.IsComment text.toList :=
  made_of_unbound (fun _ hn => ⟨hn.sound, hn.unbound⟩) h

/-- Entries in canonical form; only an import that is a name would be taken apart. -/
theorem entry {n : Node} (h : Untied n) {kind : ClauseKind}
    (himports : kind = .imports → (n.isList || n.isVector) = true) : Untied (kind.entry n) := by
  rcases Namespace.entry_cases kind n with hn | ⟨b, b', cs, rfl, hb, hn⟩ | ⟨text, rfl, hn⟩ |
    ⟨text, package, name, hkind, rfl, hn⟩
  · rw [hn]
    exact h
  · rw [hn]
    exact branch hb h.children
  · rw [hn]
    exact branch rfl fun c hc => by rwa [List.mem_singleton.mp hc]
  · cases himports hkind

/-- Items that are written out are untied if the items are. -/
theorem ungroup {items : List Item}
    (h : ∀ i ∈ items, i.Plain ∧ i.Made Untied fun text => Comment.IsComment text.toList) :
    ∀ n ∈ Item.ungroup items, Untied n := by
  refine Item.forall_ungroup space newline fun i hi => ?_
  obtain ⟨hplain, hmade⟩ := h i hi
  cases hmade with
  | comment hcomment => exact ⟨comment hcomment, by rintro _ ⟨⟩, by rintro _ ⟨⟩⟩
  | element form made marked trailing =>
    cases hplain with
    | comment => cases form
    | element => exact ⟨made, by rintro _ ⟨⟩, fun text htext => comment (trailing text htext)⟩

/-- Clauses in canonical order. -/
theorem normalizeClause {n : Node} (h : Untied n) (himports : n.importsLists = true) :
    Untied (Namespace.normalizeClause n) := by
  rcases hkind : clauseKind? n with _ | kind
  · rwa [Namespace.normalizeClause_of_none hkind]
  by_cases hother : kind = .other
  · subst hother
    rwa [Namespace.normalizeClause_of_other hkind]
  obtain ⟨cs, rfl⟩ := Node.list_of_clause hkind
  obtain ⟨leading, head, entries, hsplit⟩ := Namespace.splitHead_of_clause hkind
  obtain ⟨-, -, hitems, -⟩ := Item.splitHead_spec hsplit
  have hgroup := items h.children
  rw [hitems, ← List.append_assoc] at hgroup
  rw [Namespace.normalizeClause_eq hkind hother hsplit]
  refine branch rfl (ungroup fun i hi => ?_)
  rw [(Namespace.clauseItems_perm kind leading (some head) entries).mem_iff] at hi
  rcases List.mem_append.mp hi with hi | hi
  · exact hgroup i (List.mem_append_left _ hi)
  · obtain ⟨j, hj, rfl⟩ := List.mem_map.mp hi
    obtain ⟨hplain, hmade⟩ := hgroup j (List.mem_append_right _ hj)
    refine ⟨Namespace.plain_entry kind hplain, ?_⟩
    cases hmade with
    | comment hcomment =>
      rw [(Namespace.spares_entry kind).onto_comment rfl]
      exact .comment hcomment
    | element form made marked trailing =>
      refine .element ((Namespace.isForm_entry kind _).trans form) (made.entry fun himport => ?_)
        marked trailing
      subst himport
      rw [Node.importsLists, hkind, hsplit] at himports
      have hentry := List.all_eq_true.mp himports _ hj
      rw [Bool.or_assoc, Item.isComment, (Node.isForm_iff.mp form).2] at hentry
      exact hentry

/-- The canonical form of an untied node is canonical and of its kind. -/
theorem final {n : Node} (h : Untied n) : Namespace.Final n := by
  refine Namespace.final_clause fun cs hcs _ => ?_
  subst hcs
  exact Node.plain_of_lacks fun c hc => (h.children c hc).unbound

end Untied

/-- A head that is a keyword declares nothing. -/
theorem declaresNamespace_of_clause {cs : List Node} {kind : ClauseKind}
    (hkind : clauseKind? (.list cs) = some kind) :
    (Node.list cs).declaresNamespace = false := by
  obtain ⟨leading, head, entries, hsplit⟩ := Namespace.splitHead_of_clause hkind
  obtain ⟨hkeyword, -⟩ := keyword_of_clause hkind hsplit
  have hne : (head.element == .atom "ns") = false := by
    refine beq_eq_false_iff_ne.mpr fun hns => ?_
    rw [hns] at hkeyword
    exact absurd hkeyword (by decide)
  rw [Node.declaresNamespace, hsplit]
  show (head.element == .atom "ns" && head.marker == none) = false
  rw [hne, Bool.false_and]

/-- Steadfast elements are steadfast in canonical order, and no namespace is declared inside. -/
theorem Steadfast.normalizeClause {n : Node} (h : Steadfast n)
    (hplain : ∀ cs, n = .list cs → ∀ i ∈ Item.group cs, i.Plain) :
    (normalizeClause n).lacks Node.declaresNamespace = true ∧ Steadfast (normalizeClause n) := by
  rcases hkind : clauseKind? n with _ | kind
  · rw [Namespace.normalizeClause_of_none hkind]
    exact ⟨h.noNamespace fun kind hsome => (by cases hkind.symm.trans hsome), h⟩
  by_cases hother : kind = .other
  · subst hother
    rw [Namespace.normalizeClause_of_other hkind]
    exact ⟨h.noNamespace fun kind hsome => Option.some.inj (hsome.symm.trans hkind), h⟩
  -- A clause of entries: they are what they were, each one in canonical form, in some order.
  obtain ⟨cs, rfl⟩ := Node.list_of_clause hkind
  obtain ⟨leading, head, entries, hsplit⟩ := Namespace.splitHead_of_clause hkind
  obtain ⟨sorted, hnormal, hsplit', hperm, hcanonical⟩ :=
    Namespace.splitHead_normalizeClause (hplain cs rfl) hkind hother hsplit
  have hkind' := (Namespace.clauseKind_of_head hsplit hsplit').trans hkind
  have hentries := h.entries cs kind rfl hkind hother
  rw [hsplit] at hentries
  have hsorted : ∀ i ∈ sorted, i.isComment = false →
      i.element.lacks Node.declaresNamespace = true ∧ HoldsPlace i.element := by
    intro i hi hnot
    obtain ⟨j, hj, rfl⟩ := List.mem_map.mp (hperm.mem_iff.mp hi)
    exact hentries j hj (((Namespace.spares_entry kind).isComment_onto j).symm.trans hnot)
  rw [hnormal]
  refine ⟨Node.lacks_branch.mpr ⟨declaresNamespace_of_clause hkind', ?_⟩, ?_⟩
  · -- No namespace is declared in the keyword, in a comment or in an entry.
    refine Item.forall_ungroup (P := fun n => n.lacks Node.declaresNamespace = true) rfl rfl
      fun i hi => ⟨?_, fun _ _ => rfl, fun _ _ => rfl⟩
    cases hcomment : i.isComment with
    | true =>
      obtain ⟨text, htext⟩ := Node.eq_comment hcomment
      rw [htext]
      rfl
    | false =>
      obtain ⟨hleading, -, -, -⟩ := Item.splitHead_spec hsplit
      rcases List.mem_append.mp hi with hi | hi
      · cases (hleading i hi).symm.trans hcomment
      · rcases List.mem_cons.mp hi with rfl | hi
        · obtain ⟨kind, text, htext⟩ :=
            Node.leaf_of_keyword (keyword_of_clause hkind hsplit).1
          rw [htext]
          rfl
        · exact (hsorted i hi hcomment).1
  · -- Entries in canonical form stay as they are, so they hold their places.
    refine steadfast_clause hkind' hother hsplit' fun i hi hnot => ?_
    rw [hcanonical.entry i hi]
    exact hsorted i hi hnot

/-- A steadfast element of a declaration is firm in canonical order. -/
theorem firm_normalizeClause {n : Node} (h : Untied n) (hform : n.isForm = true)
    (himports : n.importsLists = true) (hsteadfast : Steadfast n) : Firm (normalizeClause n) := by
  have hplain : ∀ cs, n = .list cs → ∀ i ∈ Item.group cs, i.Plain := by
    intro cs hcs i hi
    subst hcs
    exact (Untied.items h.children i hi).1
  obtain ⟨hns, hsteadfast⟩ := hsteadfast.normalizeClause hplain
  exact ⟨(h.normalizeClause himports).clear hns, (Namespace.isForm_normalizeClause n).trans hform,
    hsteadfast, fun _ _ => Namespace.canonical_normalizeClause hplain⟩

/-! ## Elements that came out -/

/-- The sites of the elements of a declaration. -/
def Declaring (low : Int) : Lay → Int → Prop := fun l column => ElementLay l ∧ low ≤ column

/-- Layouts of elements of a declaration serve at its sites. -/
theorem serves_declaring {l : Lay} (h : ElementLay l) (low : Int) : Serves (Declaring low) low l :=
  ⟨h.face, fun _ hc => ⟨h, hc⟩⟩

/-- The kinds of clauses are read off the elements alone. -/
theorem kinds_eq (items : List Item) :
    kinds items = (Item.cores items).map fun c => clauseKind? c.1 := by
  simp [kinds, Item.cores, Item.core]

section

variable {low : Int} {ps : List Placing} {items out : List Item} {leaving : List String}
  (h : Accounts (Declaring low) ps items out leaving) {Q : String → Prop}
  (hmade : ∀ i ∈ items, i.Made Firm Q)

include h hmade

/-- An element that came out was firm, and its layout is one for elements of a declaration. -/
theorem firm_of_placed {p : Placing} (hp : p ∈ ps) : ElementLay p.lay ∧ Firm p.element := by
  obtain ⟨i, hi, hnot, hcore⟩ := h.placed hp
  injection hcore with helement _
  refine ⟨(h.sites p hp).2.1, ?_⟩
  rw [← helement]
  cases hmade i hi with
  | comment => cases hnot
  | element form made => exact made

/-- Canonical order does not change how what came out is laid out. -/
theorem unmoved_of_account {i : Item} (hi : i ∈ out) {l : Lay} (hl : ElementLay l) :
    Unmoved normalizeClause l i := by
  intro hnot column
  obtain ⟨p, hp, helement, -⟩ := h.landed hi hnot
  obtain ⟨hlay, hfirm⟩ := firm_of_placed h hmade hp
  rw [← helement, Placing.rendered, hfirm.unmoved hlay p.column hl column]
  exact .refl _

end

/-- Made of firm elements, items come to rest. -/
theorem rests_of_firm {items : List Item} {Q : String → Prop} (hmade : ∀ i ∈ items, i.Made Firm Q)
    {l : Lay} (hl : ElementLay l) : ∀ i ∈ items, Rests l i := by
  intro i hi
  refine rests_of_steady hl.face fun hnot c => ?_
  cases hmade i hi with
  | comment => cases hnot
  | element form made => exact made.steady hl c

section

variable {leading rest more : List Item} {head j : Item}
  (hleading : ∀ i ∈ leading, i.isComment = true) (hhead : head.isComment = false)
  (hj : j.isComment = false)

include hleading hhead hj

/-- The head comes out as a head with its face. -/
theorem face_of_head {site : Lay → Int → Prop} {ps : List Placing} {leaving : List String}
    (h : Accounts site ps (leading ++ head :: rest) (j :: more) leaving) : j.face = head.face := by
  have hheads := congrArg List.head? (faces_of_accounts h)
  rw [Item.faces, Item.faces, List.head?_map, List.head?_map,
    (Item.splitHead_elements (splitHead_cons hj more)).1,
    (Item.splitHead_elements (Namespace.splitHead_append hleading hhead rest)).1] at hheads
  exact Option.some.inj hheads

/-- What is behind the head comes out as clauses of the same kinds. -/
theorem kinds_behind_head {low : Int} {ps : List Placing} {leaving : List String}
    (h : Accounts (Declaring low) ps (leading ++ head :: rest) (j :: more) leaving)
    {Q : String → Prop} (hmade : ∀ i ∈ leading ++ head :: rest, i.Made Firm Q) :
    kinds more = kinds rest := by
  obtain ⟨qs, hmem, hinput, houtput⟩ := Namespace.behind_head h
    (Namespace.splitHead_append hleading hhead rest) (splitHead_cons hj more)
  rw [kinds_eq, kinds_eq, hinput, houtput, List.map_map, List.map_map]
  refine List.map_congr_left fun q hq => ?_
  obtain ⟨hlay, hfirm⟩ := firm_of_placed h hmade (hmem q hq)
  exact (hfirm.resembles hlay q.column).clauseKind

end

/-- What has a rule is no clause. -/
theorem onto_of_rule {table : Table} {i : Item} {rule : Rule} (h : table.ruleFor? i = some rule) :
    i.onto normalizeClause = i := by
  obtain ⟨name, hname, -, -⟩ := mem_of_ruleFor h
  rw [Item.onto, hname, Namespace.normalizeClause_of_none rfl, ← hname]

/-! ## Declarations -/

/-- What comes out of the node reads the same once more, and nothing leaves it then. -/
def Stays (lay : Lay) (n : Node) : Prop :=
  ∀ column, (lay column (lay column n).node).Alike { node := (lay column n).node }

section

variable {cs : List Node} {leading rest : List Item} {head : Item}
  (hsplit : Item.splitHead (Item.group cs) = (leading, some head, rest))
  (hrule : Table.ruleFor? .standard head = some .ns)
  (hmade : ∀ i ∈ leading ++ head :: normalizeDeclarations rest,
    i.Made Firm fun text => Comment.IsComment text.toList)

include hsplit

/-- The page of a declaration is laid out from its items in canonical order. -/
theorem laid_declaration {low column : Int} (hlow : low ≤ 0) (hc : low ≤ column) :
    (nsPage (layout .standard) column leading head rest).Laid (Declaring low) low
      (leading ++ head :: normalizeDeclarations rest) := by
  obtain ⟨hleading, hhead, -, -⟩ := Item.splitHead_spec hsplit
  have hlay := serves_declaring (.inl rfl : ElementLay (layout .standard)) low
  refine laid_led hlow hlay hlay (serves_declaring (.inr rfl) low) hc ?_ hleading (hhead head rfl) _
  rintro c ⟨⟩
  omega

include hrule

/-- A list with such a head is written as the page of a declaration. -/
theorem shows_declaration (column : Int) :
    (layout .standard column (.list cs)).Shows .list
      (nsPage (layout .standard) column leading head rest) := by
  rw [layout_eq_step]
  exact shows_ns hsplit hrule column

include hmade

/-- **Declarations can be read** when they are laid out. -/
theorem readable_declaration {column : Int} (hc : 0 ≤ column) :
    Readable (layout .standard column (.list cs)) := by
  have hlaid := laid_declaration hsplit (Int.le_refl 0) hc
  obtain ⟨hneat, hleaving⟩ := clean_page hmade
    (by
      rintro l c ⟨hl, hc⟩ i hi hnot
      cases hmade i hi with
      | comment => cases hnot
      | element form made => exact made.readable hl hc)
    hlaid.account
  have hclean : Page.Clean (nsPage (layout .standard) column leading head rest) :=
    ⟨hlaid.flows, hneat, hlaid.margin⟩
  exact hclean.readable hleaving rfl (shows_declaration hsplit hrule column)

/-- **Declarations stay.**  A declaration that was laid out is laid out as it stands. -/
theorem stays_declaration (hplain : ∀ i ∈ leading ++ head :: normalizeDeclarations rest, i.Plain)
    (hordered : Ordered (normalizeDeclarations rest)) : Stays (layout .standard) (.list cs) := by
  intro column
  obtain ⟨low, hlow, hc⟩ := exists_low column
  obtain ⟨⟨ps, h⟩, hflows, -⟩ := laid_declaration hsplit hlow hc
  obtain ⟨hleading, hhead, -, -⟩ := Item.splitHead_spec hsplit
  have hhead := hhead head rfl
  have hlay : ElementLay (layout .standard) := .inl rfl
  have hbody : ElementLay (nsClause (layout .standard)) := .inr rfl
  have hbehind : ∀ i ∈ head :: normalizeDeclarations rest, i.Made Firm _ :=
    fun i hi => hmade i (List.mem_append_right _ hi)
  obtain ⟨j, more, hitems, hj, hagain⟩ := callPage_again hlay.face hlay.face hbody.face
    { arguments := 1, bodyColumn := some (column + 2) } column hhead
    (rests_of_firm hbehind hlay head (List.mem_cons_self ..))
    (fun i hi => rests_of_firm hbehind hlay i (List.mem_cons_of_mem _ hi))
    fun i hi => rests_of_firm hbehind hbody i (List.mem_cons_of_mem _ hi)
  have hitems : (nsPage (layout .standard) column leading head rest).script.items = j :: more :=
    hitems
  -- The items are found again behind the same head, and in order.
  have hgroup : Item.splitHead (Item.group
      (nsPage (layout .standard) column leading head rest).children) = ([], some j, more) := by
    rw [group_children hflows (plain_of_accounts h hplain), hitems, splitHead_cons hj]
  rw [hitems] at h
  have hrule' : Table.ruleFor? .standard j = some .ns := by
    rw [← ruleFor_face, face_of_head hleading hhead hj h, ruleFor_face, hrule]
  have hordered' : Ordered more := by
    rw [Ordered, kinds_behind_head hleading hhead hj h hmade]
    exact hordered
  have hunmoved : ∀ {l : Lay}, ElementLay l → ∀ i ∈ j :: more, Unmoved normalizeClause l i :=
    fun hl i hi => unmoved_of_account h hmade hi hl
  have hprint := print_callPage Namespace.spares_normalizeClause
    (hunmoved hlay j (List.mem_cons_self ..))
    (fun i hi => hunmoved hlay i (List.mem_cons_of_mem _ hi))
    (fun i hi => hunmoved hbody i (List.mem_cons_of_mem _ hi))
    { arguments := 1, bodyColumn := some (column + 2) } column
  rw [onto_of_rule hrule', ← hordered'.normalizeDeclarations, hagain] at hprint
  have hnode := (shows_declaration hsplit hrule column).node
  rw [hnode]
  have hshows : ({ node := .list (nsPage (layout .standard) column leading head rest).children } :
      Rendered).Shows .list ⟨(nsPage (layout .standard) column leading head rest).script, [],
        (nsPage (layout .standard) column leading head rest).margin⟩ := ⟨rfl, rfl⟩
  exact (shows_declaration hgroup hrule' column).alike hshows hprint

end

/-! ## Declarations in a text -/

/-- The items of a declaration in canonical order are those of the declaration with their elements
    in canonical order. -/
theorem onto_of_mem {cs : List Node} {leading rest : List Item} {head : Item}
    (hsplit : Item.splitHead (Item.group cs) = (leading, some head, rest))
    (hhead : head.element = .atom "ns") {i : Item}
    (hi : i ∈ leading ++ head :: normalizeDeclarations rest) :
    ∃ j ∈ Item.group cs, i = j.onto normalizeClause := by
  obtain ⟨hleading, -, hitems, -⟩ := Item.splitHead_spec hsplit
  rw [hitems]
  rcases List.mem_append.mp hi with hi | hi
  · exact ⟨i, List.mem_append_left _ hi,
      (Namespace.spares_normalizeClause.onto_comment (hleading i hi)).symm⟩
  · rcases List.mem_cons.mp hi with rfl | hi
    · refine ⟨i, by simp, ?_⟩
      rw [Item.onto, hhead, Namespace.normalizeClause_of_none rfl, ← hhead]
    · rw [(Namespace.normalizeDeclarations_perm rest).mem_iff] at hi
      obtain ⟨j, hj, rfl⟩ := List.mem_map.mp hi
      exact ⟨j, List.mem_append_right _ (List.mem_append_right _ hj), rfl⟩

/-- **Declarations.**  A declaration of elements that are firm in canonical order can be read when
    it is laid out, and is then laid out as it stands. -/
theorem declaration_again {cs : List Node} (hns : (Node.list cs).declaresNamespace = true)
    (hcs : ∀ c ∈ cs, Untied c) (hfirm : ∀ c ∈ cs, c.isForm = true → Firm (normalizeClause c)) :
    Legible (.list cs) ∧ Stays (layout .standard) (.list cs) := by
  rcases hsplit : Item.splitHead (Item.group cs) with ⟨leading, _ | head, rest⟩
  · simp [Node.declaresNamespace, hsplit] at hns
  obtain ⟨hhead, hmarker⟩ : head.element = .atom "ns" ∧ head.marker = none := by
    simpa [Node.declaresNamespace, hsplit] using hns
  have hrule : Table.ruleFor? .standard head = some .ns := by
    simp only [Table.ruleFor?, hhead, hmarker]
    decide
  -- The items of the declaration are plain and made of untied forms that are firm in canonical
  -- order.
  have hgroup := made_of_unbound
    (P := fun n => Untied n ∧ (n.isForm = true → Firm (normalizeClause n)))
    (fun n hn => ⟨hn.1.sound, hn.1.unbound⟩) fun c hc => ⟨hcs c hc, hfirm c hc⟩
  have hitems : ∀ i ∈ leading ++ head :: normalizeDeclarations rest,
      i.Plain ∧ i.Made Firm fun text => Comment.IsComment text.toList := by
    intro i hi
    obtain ⟨j, hj, rfl⟩ := onto_of_mem hsplit hhead hi
    obtain ⟨hplain, hmade⟩ := hgroup j hj
    refine ⟨Namespace.plain_normalizeClause hplain, ?_⟩
    cases hmade with
    | comment hcomment => exact .comment hcomment
    | element form made marked trailing =>
      exact .element ((Namespace.isForm_normalizeClause _).trans form) (made.2 form) marked trailing
  -- In canonical order the clauses behind the head stay where they are.
  have hordered : Ordered (normalizeDeclarations rest) := by
    refine Namespace.ordered_normalizeDeclarations fun i hi => ?_
    obtain ⟨-, -, hsame, -⟩ := Item.splitHead_spec hsplit
    have hmem : i ∈ Item.group cs := by
      rw [hsame]
      exact List.mem_append_right _ (List.mem_append_right _ hi)
    cases (hgroup i hmem).2 with
    | comment hcomment => exact (Untied.comment hcomment).final
    | element form made => exact made.1.final
  exact ⟨fun column hc => readable_declaration hsplit hrule (fun i hi => (hitems i hi).2) hc,
    stays_declaration hsplit hrule (fun i hi => (hitems i hi).2) (fun i hi => (hitems i hi).1)
      hordered⟩

/-! ## Documents -/

/-- Items whose elements stay read the same once more. -/
theorem print_settled_again {lay : Lay} (hlay : KeepsFace lay) {i : Item}
    (h : i.isComment = false → Stays lay i.element) (column : Int) :
    ((settled lay column i).flatMap (settled lay column)).map Item.print =
      (settled lay column i).map Item.print := by
  have hcomments : ((leaving lay column i).map Item.ofComment).flatMap (settled lay column) =
      (leaving lay column i).map Item.ofComment := by
    refine flatMap_settled_of_fixed fun j hj => ?_
    obtain ⟨text, -, rfl⟩ := List.mem_map.mp hj
    exact fixed_ofComment lay column text
  have hitem : (settled lay column (settle lay column i)).map Item.print =
      [(settle lay column i).print] := by
    cases hi : i.isComment with
    | true =>
      have hcomment : settle lay column i = .ofComment i.element.text := if_pos hi
      rw [hcomment, (fixed_ofComment lay column _).settled]
      rfl
    | false =>
      obtain ⟨hnode, hhoisted⟩ := h hi (column + Draft.markerWidth i.marker)
      have hprint : (settle lay column (settle lay column i)).print =
          (settle lay column i).print := by
        rw [settle_settle hlay hi, settle, if_neg (Bool.eq_false_iff.mp hi)]
        exact congrArg (Item.mk · i.marker (i.comment.map Comment.tidy)) hnode
      have hnone : leaving lay column (settle lay column i) = [] := by
        rw [leaving_settle hlay hi]
        exact hhoisted
      rw [settled, hnone, List.map_nil, List.nil_append, List.map_singleton, hprint]
  rw [settled, List.flatMap_append, hcomments, List.flatMap_singleton, List.map_append,
    List.map_append, hitem]
  rfl

/-- **Documents stay** if their elements do: written once more they have the same text. -/
theorem text_document_again {children : List Node}
    (h : ∀ i ∈ Item.group children,
      i.Plain ∧ (i.isComment = false → Stays (layout .standard) i.element)) :
    Node.textAll (documentNodes (documentNodes children)) =
      Node.textAll (documentNodes children) := by
  have hfirst : Gap.none.Opens 0 none := rfl
  have hflows : Flows 0 none (documentScript (layout .standard) (Item.group children)) :=
    flows_spread (Int.le_refl 0) hfirst _
  obtain ⟨ps, haccount⟩ := account_document .standard children
  have hgroup := group_plain hflows (plain_of_accounts haccount fun i hi => (h i hi).1)
    (fun n (hn : n ∈ []) => by cases hn)
  rw [List.append_nil, documentScript, items_spread] at hgroup
  have hprint : ((documentScript (layout .standard) (Item.group (documentNodes children)))).print =
      (documentScript (layout .standard) (Item.group children)).print := by
    rw [documentNodes, documentScript, documentScript, hgroup, print_spread, print_spread]
    refine congrArg (spread .none) ?_
    rw [List.flatMap_assoc, List.map_flatMap, List.map_flatMap]
    refine congrArg List.flatten (List.map_congr_left fun i hi => ?_)
    exact print_settled_again (faithful_layout .standard .plain) (h i hi).2 0
  rw [documentNodes, ← Script.text_print, hprint, Script.text_print, documentNodes]

end Layout

end CljTidy
