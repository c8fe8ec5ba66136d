/-
  Canonical order of what was laid out.

  Canonical order looks at little: at the keywords in front of clauses, at the brackets of entries
  and at their texts on a single line.  A node that comes out of a layout looks the same to it, if
  it has its face and a list has elements with their faces (`Resembles`); an entry also keeps its
  place if it keeps its text on a single line (`KeepsPlace`).  Entries in canonical order then come
  out in canonical order (`canonical_of_account`), so a clause that was laid out has the items it
  would have in canonical order (`group_normalizeClause`), and lists with the same items are laid
  out in the same way (`layout_of_group`).
-/
import CljTidy.Proofs.Layout.Single
import CljTidy.Proofs.Namespace.Order

namespace CljTidy

/-! ## Plain items -/

namespace Layout

/-- Plain items come out plain. -/
theorem plain_of_accounts {site : Lay → Int → Prop} {ps : List Placing} {items out : List Item}
    {leaving : List String} (h : Accounts site ps items out leaving)
    (hplain : ∀ i ∈ items, i.Plain) : ∀ i ∈ out, i.Plain := by
  intro i hi
  cases hcomment : i.isComment with
  | true =>
    obtain ⟨hmarker, hnone⟩ := h.plain i hi hcomment
    obtain ⟨text, htext⟩ := Node.eq_comment hcomment
    obtain ⟨element, marker, comment⟩ := i
    subst hmarker hnone htext
    exact .comment text
  | false =>
    obtain ⟨p, hp, helement, hmarker⟩ := h.landed hi hcomment
    obtain ⟨j, hj, hnot, hcore⟩ := h.placed hp
    have hface := h.face hp
    cases hplain j hj with
    | comment => cases hnot
    | @element node comment form depth named =>
      obtain ⟨element, marker, comment'⟩ := i
      injection hcore with helement' hmarker'
      rw [helement, ← helement'] at hface
      rw [← hmarker'] at hmarker
      subst hmarker
      refine .element comment' ((Node.isForm_of_face hface).trans form) ?_ fun hnamed => ?_
      · rw [← Node.discardDepth_face, hface, Node.discardDepth_face]
        exact depth
      · rw [hnamed] at hface
        exact named (Node.atom_of_face hface.symm)

/-- Plain items of a script are found again in its nodes, trivia at the end aside. -/
theorem group_plain {low : Int} {script : Script} (hflows : Flows low none script)
    (hplain : ∀ i ∈ script.items, i.Plain) {ns : List Node} (hnoise : ∀ n ∈ ns, n.isNoise = true) :
    Item.group (script.nodes ++ ns) = script.items := by
  have hcore : ∀ c ∈ Item.cores script.items, c.1.discardDepth ≤ 1 ∧ c ≠ Item.stray := by
    intro c hc
    obtain ⟨i, hi, hnot, rfl⟩ := Item.mem_cores hc
    cases hplain i hi with
    | comment => cases hnot
    | element comment form depth named =>
      exact ⟨depth, fun hstray => named (congrArg Prod.fst hstray)⟩
  refine group_script hflows (fun i hi => ?_)
    (fun c hc => hcore c (List.dropLast_subset _ hc)) (fun hstray => absurd rfl (hcore _ hstray).2)
    hnoise
  cases hplain i hi with
  | comment text => exact .comment trivial
  | element comment form => exact .element form trivial (.inl rfl) fun _ _ => trivial

/-- Plain items of a page are found again in its children. -/
theorem group_children {low : Int} {page : Page} (hflows : Flows low none page.script)
    (hplain : ∀ i ∈ page.script.items, i.Plain) :
    Item.group page.children = page.script.items := by
  refine group_plain hflows hplain fun n hn => ?_
  split at hn
  · exact noise_gap _ n hn
  · cases hn

end Layout

namespace Namespace

open Layout (Account Accounts Rendered)

/-! ## Nodes that look the same to canonical order -/

/-- The nodes have the same face, and the elements of lists have. -/
structure Resembles (m n : Node) : Prop where
  face : m.face = n.face
  elements : ∀ ds cs, m = .list ds → n = .list cs →
    Item.faces (Item.group ds) = Item.faces (Item.group cs)

/-- A keyword can be told from its face. -/
theorem keyword_face (n : Node) : n.face.isKeyword = n.isKeyword :=
  Node.view_face (fun kind _ => by cases kind <;> rfl) (fun _ _ => rfl) (fun _ _ => rfl)
    (fun _ _ => rfl) n

/-- The keyword of a clause can be told from the faces of its elements. -/
theorem clauseKeyword_faces (cs : List Node) :
    clauseKeyword? (.list cs) = (Item.faces (Item.group cs)).head?.bind fun head =>
      if head.element.isKeyword then some head.element.text else none := by
  rcases hsplit : Item.splitHead (Item.group cs) with ⟨leading, head, entries⟩
  rw [clauseKeyword?, hsplit, Item.faces, List.head?_map, (Item.splitHead_elements hsplit).1]
  cases head with
  | none => rfl
  | some head =>
    simp only [Option.map_some, Option.bind_some, Item.face, keyword_face]
    split
    · rename_i hkeyword
      cases hatom : head.element with
      | leaf kind text =>
        rw [hatom] at hkeyword
        cases kind <;> first | rfl | cases hkeyword
      | _ =>
        rw [hatom] at hkeyword
        cases hkeyword
    · rfl

/-- An entry that is a list keeps its bracket if its second element is there and no keyword. -/
theorem requireEntry_list (cs : List Node) :
    requireEntry (.list cs) = .list cs ↔
      ∃ first second rest, Item.faces (Item.group cs) = first :: second :: rest ∧
        second.element.isKeyword = false := by
  rw [Item.faces, requireEntry]
  rcases Item.elements (Item.group cs) with _ | ⟨first, _ | ⟨second, rest⟩⟩
  · simp
  · simp
  · cases hkeyword : second.element.isKeyword with
    | true => simp [hkeyword, Item.face, keyword_face]
    | false =>
      simp only [hkeyword, Bool.false_eq_true, if_false, true_iff]
      exact ⟨_, _, _, rfl, (keyword_face _).trans hkeyword⟩

namespace Resembles

variable {m n : Node} (h : Resembles m n)

include h

/-- What resembles a clause is a clause of its kind. -/
theorem clauseKind : clauseKind? m = clauseKind? n := by
  cases hlist : n.isList with
  | true =>
    obtain ⟨cs, rfl⟩ := Node.eq_list hlist
    obtain ⟨ds, rfl⟩ := Layout.list_of_face h.face
    rw [clauseKind?, clauseKind?, clauseKeyword_faces, clauseKeyword_faces,
      h.elements ds cs rfl rfl]
  | false =>
    have hlist' : m.isList = false := by
      rw [← Node.isList_face, h.face, Node.isList_face]
      exact hlist
    have hnone : ∀ x : Node, x.isList = false → clauseKind? x = none := by
      intro x hx
      cases hkind : clauseKind? x with
      | none => rfl
      | some kind =>
        obtain ⟨cs, rfl⟩ := Node.list_of_clause hkind
        cases hx
    rw [hnone m hlist', hnone n hlist]

/-- What resembles a canonical entry is canonical. -/
theorem entry {kind : ClauseKind} (hn : kind.entry n = n) : kind.entry m = m := by
  have hatom : ∀ text, m = .atom text → kind.entry m = m := by
    rintro text rfl
    rw [Node.atom_of_face h.face.symm] at hn
    exact hn
  cases kind with
  | other => rfl
  | requires =>
    show requireEntry m = m
    rcases m with ⟨_ | _ | _ | _ | _, text⟩ | ⟨_ | _ | _ | _ | _ | _, ds⟩ | _ | _ | _
    case leaf.atom => exact hatom text rfl
    case branch.list =>
      obtain ⟨cs, rfl⟩ := Layout.list_of_face h.face.symm
      have hn : requireEntry (.list cs) = .list cs := hn
      rw [requireEntry_list] at hn ⊢
      rwa [h.elements ds cs rfl rfl]
    all_goals rfl
  | imports =>
    show importEntry m = m
    rcases m with ⟨_ | _ | _ | _ | _, text⟩ | ⟨_ | _ | _ | _ | _ | _, ds⟩ | _ | _ | _
    case leaf.atom => exact hatom text rfl
    case branch.vector =>
      have hvector : n.isVector = true := by
        rw [← Node.isVector_face, ← h.face]
        rfl
      rcases n with _ | ⟨_ | _ | _ | _ | _ | _, cs⟩ | _ | _ | _
      case branch.vector => cases hn
      all_goals cases hvector
    all_goals rfl

end Resembles

section

open Layout

/-- A list of plain items that came out as a page resembles itself. -/
theorem resembles_page {site : Lay → Int → Prop} {low : Int} {cs : List Node} {r : Rendered}
    {page : Page} (hshows : r.Shows .list page) (hflows : Flows low none page.script)
    (hplain : ∀ i ∈ Item.group cs, i.Plain)
    (haccount : Account site (Item.group cs) page.script.items page.leaving) :
    Resembles r.node (.list cs) := by
  obtain ⟨ps, h⟩ := haccount
  refine ⟨by rw [hshows.node]; rfl, fun ds cs' hds hcs => ?_⟩
  rw [hshows.node] at hds
  injection hds with _ hds
  injection hcs with _ hcs
  rw [← hds, ← hcs, group_children hflows (plain_of_accounts h hplain), faces_of_accounts h]

/-- A regular node resembles what comes out of it, wherever it is placed. -/
theorem resembles_lay {table : Table} {n : Node} (hregular : Regular table n)
    (hplain : ∀ cs, n = .list cs → ∀ i ∈ Item.group cs, i.Plain) (place : Place) (column : Int) :
    Resembles (place.lay (layout table) column n).node n := by
  have hface := face_lay table place column n
  cases hlist : n.isList with
  | true =>
    obtain ⟨cs, rfl⟩ := Node.eq_list hlist
    obtain ⟨plan, hplan⟩ := exists_plan hregular.branch.2.1 place
    obtain ⟨low, hlow, hc⟩ := exists_low column
    have hlay := faithful_layout table
    have hlaid := laid_plan hlow (serves_somewhere hlay low) (indents_plan hplan) hc .list
      (Item.group cs)
    exact resembles_page (shows_layout rfl hplan column) hlaid.flows (hplain cs rfl) hlaid.account
  | false =>
    refine ⟨hface, fun ds cs _ hcs => ?_⟩
    rw [hcs] at hlist
    cases hlist

/-- A node without comments resembles its single line. -/
theorem resembles_flatten {n : Node} (hshape : n.lacks Node.misshapen = true)
    (hnone : n.commentTexts = []) : Resembles n.flatten n := by
  refine ⟨n.face_flatten, fun ds cs hds hcs => ?_⟩
  subst hcs
  rw [Node.commentTexts_branch] at hnone
  rw [flatten_branch rfl] at hds
  injection hds with _ hds
  rw [← hds, group_inline (Node.lacks_branch.mp hshape).2 hnone, Node.inward_flatten.faces]

end

/-! ## Clauses -/

/-- What comes out of an entry has its bracket and its place. -/
structure KeepsPlace (r : Rendered) (n : Node) : Prop where
  resembles : Resembles r.node n
  key : r.node.flatten.text = n.flatten.text

/-- The first element is the head, and the others are behind it. -/
theorem cores_of_splitHead {items leading rest : List Item} {head : Item}
    (h : Item.splitHead items = (leading, some head, rest)) :
    Item.cores items = head.core :: Item.cores rest := by
  obtain ⟨hleading, hhead, hitems, -⟩ := Item.splitHead_spec h
  rw [hitems, Item.cores_append, Item.cores_eq_nil_of_comments hleading, List.nil_append]
  exact Item.cores_cons_element (hhead head rfl) rest

/-- Sort keys are read off the elements alone. -/
theorem keys_eq (items : List Item) :
    ((Item.elements items).map fun i => i.element.flatten.text) =
      (Item.cores items).map fun c => c.1.flatten.text := by
  simp [Item.cores, Item.core]

/-- The elements behind the head were laid out from the elements behind the head. -/
theorem behind_head {site : Layout.Lay → Int → Prop} {ps : List Layout.Placing}
    {items out : List Item} {leaving : List String} (h : Accounts site ps items out leaving)
    {leading leading' entries entries' : List Item} {head head' : Item}
    (hsplit : Item.splitHead items = (leading, some head, entries))
    (hsplit' : Item.splitHead out = (leading', some head', entries')) :
    ∃ qs : List Layout.Placing, (∀ q ∈ qs, q ∈ ps) ∧
      Item.cores entries = (qs.map fun q => (q.element, q.marker)) ∧
      Item.cores entries' = qs.map fun q => (q.rendered.node, q.marker) := by
  have hinput := h.input
  have houtput := h.output
  rw [cores_of_splitHead hsplit] at hinput
  rw [cores_of_splitHead hsplit'] at houtput
  cases ps with
  | nil => cases hinput
  | cons p qs =>
    rw [List.map_cons, List.cons.injEq] at hinput houtput
    exact ⟨qs, fun q hq => List.mem_cons_of_mem _ hq, hinput.2, houtput.2⟩

/-- **Entries in canonical order come out in canonical order**, if they keep their places. -/
theorem canonical_of_account {site : Layout.Lay → Int → Prop} {items out : List Item}
    {leaving : List String} (haccount : Account site items out leaving)
    {leading leading' entries entries' : List Item} {head head' : Item}
    (hsplit : Item.splitHead items = (leading, some head, entries))
    (hsplit' : Item.splitHead out = (leading', some head', entries')) {kind : ClauseKind}
    (hcanonical : Canonical kind entries)
    (hkeeps : ∀ l c, site l c → ∀ i ∈ entries, i.isComment = false →
      KeepsPlace (l c i.element) i.element) :
    Canonical kind entries' := by
  obtain ⟨ps, h⟩ := haccount
  obtain ⟨qs, hmem, hinput, houtput⟩ := behind_head h hsplit hsplit'
  -- Every entry behind the head was placed, kept its place, and was in canonical form.
  have hplaced : ∀ q ∈ qs, KeepsPlace q.rendered q.element ∧ kind.entry q.element = q.element := by
    intro q hq
    have hcore : (q.element, q.marker) ∈ Item.cores entries := by
      rw [hinput]
      exact List.mem_map_of_mem hq
    obtain ⟨i, hi, hnot, hcore⟩ := Item.mem_cores hcore
    injection hcore with helement _
    have hplace := hkeeps q.lay q.column (h.sites q (hmem q hq)).2 i hi hnot
    have hentry := hcanonical.entry i hi
    rw [helement] at hplace hentry
    exact ⟨hplace, hentry⟩
  constructor
  · -- What came out of it is in canonical form, as it resembles it.
    intro i hi
    cases hcomment : i.isComment with
    | true =>
      obtain ⟨text, htext⟩ := Node.eq_comment hcomment
      rw [htext, (spares_entry kind).comment]
    | false =>
      have hcore := Item.core_mem hi hcomment
      rw [houtput] at hcore
      obtain ⟨q, hq, hcore⟩ := List.mem_map.mp hcore
      obtain ⟨hplace, hentry⟩ := hplaced q hq
      have helement : i.element = q.rendered.node := (congrArg Prod.fst hcore).symm
      rw [helement]
      exact hplace.resembles.entry hentry
  · -- The sort keys are those before, so they are still in order.
    have hkeys : (Item.cores entries').map (fun c => c.1.flatten.text) =
        (Item.cores entries).map fun c => c.1.flatten.text := by
      rw [houtput, hinput, List.map_map, List.map_map]
      exact List.map_congr_left fun q hq => (hplaced q hq).1.key
    rw [keys_eq, hkeys, ← keys_eq]
    exact hcanonical.order

/-- **Clauses that were laid out have the items they have in canonical order.** -/
theorem group_normalizeClause {ds : List Node} (hplain : ∀ i ∈ Item.group ds, i.Plain)
    {kind : ClauseKind} (hkind : clauseKind? (.list ds) = some kind)
    (hcanonical : kind ≠ .other → Canonical kind (Item.splitHead (Item.group ds)).2.2) :
    ∃ ds', normalizeClause (.list ds) = .list ds' ∧ Item.group ds' = Item.group ds := by
  by_cases hother : kind = .other
  · subst hother
    exact ⟨ds, normalizeClause_of_other hkind, rfl⟩
  rcases hsplit : Item.splitHead (Item.group ds) with ⟨leading, head, entries⟩
  obtain ⟨-, -, hitems, -⟩ := Item.splitHead_spec hsplit
  have hcanonical := hcanonical hother
  rw [hsplit] at hcanonical
  have hsame := hcanonical.clauseItems leading head
  rw [List.append_assoc, ← hitems] at hsame
  refine ⟨_, normalizeClause_eq hkind hother hsplit, ?_⟩
  rw [hsame, group_ungroup hplain]

end Namespace

/-! ## Lists with the same items -/

namespace Layout

variable {table : Table} {cs ds : List Node} (h : Item.group ds = Item.group cs)

include h

/-- Lists with the same items are laid out the same. -/
theorem layout_of_group (column : Int) :
    layout table column (.list ds) = layout table column (.list cs) := by
  rw [layout_eq_step, layout_eq_step]
  show list table (layout table) column ds = list table (layout table) column cs
  rw [list, list, h]

theorem containsComment_of_group :
    (Node.list ds).containsComment = (Node.list cs).containsComment := by
  have hds := Item.allComments_group ds
  have hcs := Item.allComments_group cs
  rw [h] at hds
  have hsame := hds.symm.trans hcs
  have hiff : (Node.list ds).containsComment = false ↔ (Node.list cs).containsComment = false := by
    rw [← Node.commentTexts_eq_nil, ← Node.commentTexts_eq_nil, Node.commentTexts_branch,
      Node.commentTexts_branch]
    exact ⟨fun hnil => List.nil_perm.mp (hnil ▸ hsame), fun hnil => List.perm_nil.mp (hnil ▸ hsame)⟩
  cases hc : (Node.list cs).containsComment with
  | false => exact hiff.mpr hc
  | true =>
    refine Bool.of_not_eq_false fun hd => ?_
    rw [hiff.mp hd] at hc
    cases hc

/-- So are clauses, since a list with the same items has a comment in it just if the other one
    has. -/
theorem nsClause_of_group (column : Int) :
    nsClause (layout table) column (.list ds) = nsClause (layout table) column (.list cs) := by
  have hflat : flat (layout table) column (.list ds) = flat (layout table) column (.list cs) := by
    rw [flat, flat, containsComment_of_group h, layout_of_group h, flatten_branch rfl,
      flatten_branch rfl, h]
  rw [nsClause, nsClause]
  simp only [h, hflat, layout_of_group h]

end Layout

end CljTidy
