/-
  Clauses that are laid out already.

  A clause of a declaration is steady if its entries are: those without comments are on a single
  line and stay on it, and the others are laid out as anywhere, provided that a comment is left in
  them (`steady_clause`).  If entries also keep their texts on a single line, a clause that was
  laid out is in canonical order (`group_clause`), and putting it in order changes nothing of how it
  is laid out (`Firm.unmoved`).
-/
import CljTidy.Proofs.Layout.Gist
import CljTidy.Proofs.Namespace.Laid

namespace CljTidy

/-! ## Trees without `&` and discards -/

namespace Node

/-- An `&` or a discard. -/
def binds : Node → Bool
  | .atom text => text == "&"
  | .discard _ => true
  | _ => false

/-- Without `&` and discards children are plain, -/
theorem plain_of_lacks {cs : List Node} (h : ∀ c ∈ cs, c.lacks binds = true) : Plain cs := by
  refine fun c hc => ⟨?_, ?_⟩
  · rintro rfl
    cases h _ hc
  · unfold stacksDiscards
    split
    · cases (lacks_wrap.mp (h _ hc)).1
    · rfl

/-- and no `&` dangles, here -/
theorem markerDangles_of_lacks {cs : List Node} (h : ∀ c ∈ cs, c.lacks binds = true) :
    markerDangles cs = false := by
  induction cs with
  | nil => rfl
  | cons c cs ih =>
    have hne : (c == .atom "&") = false :=
      beq_eq_false_iff_ne.mpr (plain_of_lacks h c (List.mem_cons_self ..)).1
    rw [markerDangles, hne, Bool.false_and, Bool.false_or]
    exact ih fun d hd => h d (List.mem_cons_of_mem _ hd)

/-- or further inside. -/
theorem lacks_danglesMarker {n : Node} (h : n.lacks binds = true) :
    n.lacks danglesMarker = true := by
  induction n using Node.induction with
  | leaf kind text => rfl
  | branch b cs ih =>
    have hcs := (lacks_branch.mp h).2
    exact lacks_branch.mpr ⟨markerDangles_of_lacks hcs, fun c hc => ih c hc (hcs c hc)⟩
  | wrap m n ih => exact lacks_wrap.mpr ⟨rfl, ih (lacks_wrap.mp h).2⟩
  | annotated m t ihm iht =>
    obtain ⟨-, hm, ht⟩ := lacks_annotated.mp h
    exact lacks_annotated.mpr ⟨rfl, ihm hm, iht ht⟩
  | unknown => rfl

end Node

namespace Layout

open Namespace (ClauseKind Canonical Resembles KeepsPlace clauseKind? clauseKeyword?
  normalizeClause splitHead_of_clause)

/-- A fit node without `&` and discards. -/
structure Clear (n : Node) : Prop where
  fit : Fit n
  unbound : n.lacks Node.binds = true

namespace Clear

variable {n : Node} (h : Clear n)

include h

/-- A clear node is regular, -/
theorem regular : Regular .standard n := h.fit.regular

/-- and so it is steady in the usual layout. -/
theorem steady (hform : n.isForm = true) (column : Int) :
    Steady (layout .standard) column n :=
  steady_lay n h.regular hform (Node.lacks_danglesMarker h.unbound) .plain column

end Clear

/-- The children of a clear collection are clear. -/
theorem Clear.children {b : Bracket} {cs : List Node} (h : Clear (.branch b cs)) :
    ∀ c ∈ cs, Clear c := by
  have hsound := h.fit.sound
  intro c hc
  cases hsound with
  | branch _ children =>
    exact ⟨⟨children c hc, (Node.lacks_branch.mp h.fit.noNamespace).2 c hc,
      (Node.lacks_branch.mp h.fit.noDeref).2 c hc⟩, (Node.lacks_branch.mp h.unbound).2 c hc⟩

/-- The items of sound children without `&` and discards are plain, and made of children. -/
theorem made_of_unbound {P : Node → Prop} {cs : List Node}
    (hsound : ∀ n, P n → n.Sound ∧ n.lacks Node.binds = true) (hcs : ∀ c ∈ cs, P c) :
    ∀ i ∈ Item.group cs, i.Plain ∧ i.Made P fun text => Comment.IsComment text.toList := by
  intro i hi
  obtain ⟨hplain, hmem⟩ := plain_group (Node.plain_of_lacks fun c hc => (hsound c (hcs c hc)).2)
    (fun c hc => shape_of_sound (hsound c (hcs c hc)).1) i hi
  have hmade := made_group (P := Node.Sound) (Q := fun text => Comment.IsComment text.toList)
    (fun _ hform hn => sound_discard hform hn) (fun _ hn => Sound.of_discard hn)
    (fun c hc _ => (hsound c (hcs c hc)).1)
    (fun _ hc => isComment_of_sound (hsound _ (hcs _ hc)).1) i hi
  refine ⟨hplain, ?_⟩
  cases hmade with
  | comment comment => exact .comment comment
  | element form _ marked trailing =>
    exact .element form (hcs _ (hmem (Node.isForm_iff.mp form).2)) marked trailing

/-- The items of a clear node are plain, and their elements are clear forms. -/
theorem Clear.items {b : Bracket} {cs : List Node} (h : Clear (.branch b cs)) :
    ∀ i ∈ Item.group cs, i.Plain ∧
      (i.isComment = false → i.element.isForm = true ∧ Clear i.element) := by
  intro i hi
  obtain ⟨hplain, hmade⟩ := made_of_unbound (fun n hn => ⟨hn.fit.sound, hn.unbound⟩) h.children i hi
  refine ⟨hplain, fun hnot => ?_⟩
  cases hmade with
  | comment => cases hnot
  | element form made => exact ⟨form, made⟩

/-- A clear node comes out resembling itself. -/
theorem Clear.resembles {n : Node} (h : Clear n) (column : Int) :
    Resembles (layout .standard column n).node n := by
  refine Namespace.resembles_lay h.regular (fun cs hcs i hi => ?_) .plain column
  subst hcs
  exact (h.items i hi).1

/-! ## On a single line, or not -/

/-- If there is a comment inside, one is left when the node is laid out. -/
def KeepsComment (n : Node) : Prop :=
  n.containsComment = true → ∀ column, (layout .standard column n).node.containsComment = true

/-- What has a comment inside is laid out as anywhere, -/
theorem flat_of_comment {lay : Lay} {n : Node} (h : n.containsComment = true) (column : Int) :
    flat lay column n = lay column n := if_pos h

/-- and everything else goes on a single line. -/
theorem flat_of_no_comment {lay : Lay} {n : Node} (h : n.containsComment = false) (column : Int) :
    flat lay column n = { node := n.flatten } := if_neg (Bool.eq_false_iff.mp h)

section

variable {n : Node} (hclear : Clear n) (hform : n.isForm = true)

include hclear

/-- Either way it resembles what it was. -/
theorem resembles_flat (column : Int) : Resembles (flat (layout .standard) column n).node n := by
  cases hc : n.containsComment with
  | true =>
    rw [flat_of_comment hc]
    exact hclear.resembles column
  | false =>
    rw [flat_of_no_comment hc]
    exact Namespace.resembles_flatten (shape_of_sound hclear.fit.sound)
      (Node.commentTexts_eq_nil.mpr hc)

include hform

/-- What may go on a single line comes out the same once more, if it keeps a comment. -/
theorem steady_flat (hkeeps : KeepsComment n) (column : Int) :
    Steady (flat (layout .standard)) column n := by
  cases hc : n.containsComment with
  | true =>
    obtain ⟨hnode, hhoisted⟩ := hclear.steady hform column
    constructor
    · rw [flat_of_comment hc, flat_of_comment (hkeeps hc column), hnode]
    · rw [flat_of_comment hc, flat_of_comment (hkeeps hc column), hhoisted]
  | false =>
    have hnone := Node.commentTexts_eq_nil.mpr hc
    have hline := Node.commentTexts_eq_nil.mp (Node.commentTexts_flatten hnone)
    have hagain := flatten_flatten n (shape_of_sound hclear.fit.sound) hnone
    constructor
    · rw [flat_of_no_comment hc, flat_of_no_comment hline, hagain]
    · rw [flat_of_no_comment hc, flat_of_no_comment hline]

/-- On a single line or not, it can be read again. -/
theorem readable_flat {column : Int} (hc : 0 ≤ column) :
    Readable (flat (layout .standard) column n) := by
  cases hcomment : n.containsComment with
  | true =>
    rw [flat_of_comment hcomment]
    exact readable_lay n hclear.fit hform .plain column hc
  | false =>
    rw [flat_of_no_comment hcomment]
    exact readable_flatten n hclear.fit hform (Node.commentTexts_eq_nil.mpr hcomment)

end

/-! ## Entries -/

/-- If there is a comment inside an entry, then laid out it has the text on a single line that it
    had, and a comment is left in it. -/
structure HoldsPlace (n : Node) : Prop where
  key : n.containsComment = true → ∀ column,
    (layout .standard column n).node.flatten.text = n.flatten.text
  comment : KeepsComment n

/-- Without a comment inside nothing has to be kept. -/
theorem holdsPlace_of_no_comment {n : Node} (h : n.containsComment = false) : HoldsPlace n := by
  constructor
  · intro hc
    cases h.symm.trans hc
  · intro hc
    cases h.symm.trans hc

/-- A node that no comment leaves keeps its comments. -/
theorem keepsComment_of_hoisted {n : Node}
    (h : ∀ column, (layout .standard column n).hoisted = []) : KeepsComment n := by
  intro hc column
  have hkeeps : Retains (layout .standard column n) n := retains_lay n .plain column
  unfold Retains KeepsComments at hkeeps
  rw [h column, List.map_nil, List.append_nil] at hkeeps
  cases hnone : (layout .standard column n).node.containsComment with
  | true => rfl
  | false =>
    rw [Node.commentTexts_eq_nil.mpr hnone, List.map_nil, List.nil_perm, List.map_eq_nil_iff,
      Node.commentTexts_eq_nil, hc] at hkeeps
    cases hkeeps

/-- What a plain item looks like on a single line, before and behind a layout. -/
theorem line_settle {lay : Lay} {i : Item} (hplain : i.Plain)
    (htidy : i.isComment = true → Comment.tidy i.element.text = i.element.text)
    (h : i.isComment = false → ∀ c, (lay c i.element).node.flatten.text = i.element.flatten.text)
    {column : Int} :
    ((settle lay column i).onto Node.flatten).element.text = (i.onto Node.flatten).element.text ∧
      ((settle lay column i).onto Node.flatten).marker = (i.onto Node.flatten).marker := by
  cases hplain with
  | comment text => exact ⟨htidy rfl, rfl⟩
  | element comment form =>
    have hnot := (Node.isForm_iff.mp form).2
    have hopen : Item.isComment ⟨_, none, comment⟩ = false := hnot
    rw [settle, if_neg (Bool.eq_false_iff.mp hopen)]
    exact ⟨h hnot _, rfl⟩

/-- A vector holds its place if its own comments are tidy and there are none inside its elements. -/
theorem holdsPlace_vector {cs : List Node} (hregular : Regular .standard (.vector cs))
    (hplain : Node.Plain cs)
    (htidy : ∀ i ∈ Item.group cs, i.isComment = true →
      Comment.tidy i.element.text = i.element.text)
    (hnone : ∀ i ∈ Item.group cs, i.isComment = false → i.element.commentTexts = []) :
    HoldsPlace (.vector cs) := by
  have hplan : Place.plan? .standard .vector (Item.group cs) .plain = some .sequence := rfl
  have hshows : ∀ column, (layout .standard column (.vector cs)).Shows .vector
      (sequencePage (layout .standard) (column + Bracket.vector.width) (Item.group cs)) :=
    fun column => shows_layout rfl hplan column
  refine ⟨fun _ column => ?_, keepsComment_of_hoisted fun column => (hshows column).hoisted⟩
  obtain ⟨-, -, hcs⟩ := hregular.branch
  have hitems := plain_group hplain fun c hc => (hcs c hc).shape
  have hlay := faithful_layout .standard
  obtain ⟨low, hlow, hc⟩ := exists_low column
  obtain ⟨hflows, -⟩ := flows_page hlay (indents_plan hplan) hlow hc .vector (Item.group cs)
  obtain ⟨ps, haccount⟩ := account_page (serves_somewhere hlay low) (indents_plan hplan) hlow hc
    .vector (Item.group cs)
  -- Nothing leaves the elements, since there are no comments in them.
  have hleaving : ∀ i ∈ Item.group cs, leaving (layout .standard) (column + 1) i = [] := by
    intro i hi
    cases hcomment : i.isComment with
    | true => exact if_pos hcomment
    | false =>
      rw [leaving, if_neg (Bool.eq_false_iff.mp hcomment)]
      exact hoisted_of_no_comments (hnone i hi hcomment) .plain _
  -- So the items that come out are the items, each one settled.
  have hgroup : Item.group (sequencePage (layout .standard) (column + Bracket.vector.width)
      (Item.group cs)).children = (Item.group cs).map (settle (layout .standard) (column + 1)) := by
    have hfound := group_children hflows
      (plain_of_accounts haccount fun i hi => (hitems i hi).1)
    rw [Plan.page, sequencePage, items_rows] at hfound
    exact hfound.trans (flatMap_settled_of_leaving hleaving)
  rw [(hshows column).node, Node.flatten_collection rfl, Node.flatten_collection rfl,
    Node.inward_flatten.group, Node.inward_flatten.group, hgroup, List.map_map, Node.text,
    Node.text]
  rw [Node.text_inline (f := Item.onto Node.flatten ∘ settle (layout .standard) (column + 1))
    (g := Item.onto Node.flatten)]
  -- On a line, an item that is settled has the text it had.
  intro i hi
  obtain ⟨hplain, hmem⟩ := hitems i hi
  refine line_settle hplain (htidy i hi) fun hnot c => ?_
  have hform : i.element.isForm = true := by
    cases hplain with
    | comment => cases hnot
    | element comment form => exact form
  have hsame := flatten_lay _ (hcs _ (hmem hnot)) hform (hnone i hi hnot) .plain c
  exact congrArg Node.text hsame

/-- The layouts of the entries of a clause. -/
def EntryLay (l : Lay) : Prop := l = layout .standard ∨ l = flat (layout .standard)

/-- Both layouts of entries keep faces. -/
theorem EntryLay.face {l : Lay} (h : EntryLay l) : KeepsFace l := by
  have hlay := faithful_layout .standard .plain
  rcases h with rfl | rfl
  · exact hlay
  · exact keepsFace_flat hlay

section

variable {n : Node} (hclear : Clear n) (hform : n.isForm = true) (hholds : HoldsPlace n)

include hclear hform hholds

/-- **Entries keep their places.** -/
theorem keepsPlace_entry {l : Lay} (hl : EntryLay l) (column : Int) :
    KeepsPlace (l column n) n := by
  have hlay : KeepsPlace (layout .standard column n) n := by
    refine ⟨hclear.resembles column, ?_⟩
    cases hc : n.containsComment with
    | true => exact hholds.key hc column
    | false =>
      have hsame := flatten_lay n hclear.regular hform (Node.commentTexts_eq_nil.mpr hc) .plain
        column
      exact congrArg Node.text hsame
  rcases hl with rfl | rfl
  · exact hlay
  · refine ⟨resembles_flat hclear column, ?_⟩
    cases hc : n.containsComment with
    | true =>
      rw [flat_of_comment hc]
      exact hlay.key
    | false =>
      rw [flat_of_no_comment hc, flatten_flatten n (shape_of_sound hclear.fit.sound)
        (Node.commentTexts_eq_nil.mpr hc)]

/-- So an entry that was laid out is laid out the same way. -/
theorem steady_entry {l : Lay} (hl : EntryLay l) (column : Int) : Steady l column n := by
  rcases hl with rfl | rfl
  · exact hclear.steady hform column
  · exact steady_flat hclear hform hholds.comment column

end

/-! ## Clauses -/

/-- A clause of libraries or imports, by its head. -/
theorem keyword_of_clause {cs : List Node} {kind : ClauseKind}
    (hkind : clauseKind? (.list cs) = some kind) {leading entries : List Item} {head : Item}
    (hsplit : Item.splitHead (Item.group cs) = (leading, some head, entries)) :
    head.element.isKeyword = true ∧ ClauseKind.ofKeyword head.element.text = kind := by
  rw [clauseKind?, clauseKeyword?, hsplit] at hkind
  simp only at hkind
  split at hkind
  · rename_i hkeyword
    exact ⟨hkeyword, Option.some.inj hkind⟩
  · cases hkind

/-- What is no clause is laid out as anywhere, -/
theorem nsClause_of_none {lay : Lay} {n : Node} (h : clauseKind? n = none) (column : Int) :
    nsClause lay column n = lay column n := by
  cases hlist : n.isList with
  | false => exact nsClause_of_not_list hlist column
  | true =>
    obtain ⟨cs, rfl⟩ := Node.eq_list hlist
    rcases hsplit : Item.splitHead (Item.group cs) with ⟨leading, _ | head, entries⟩
    · simp only [nsClause, hsplit]
    · rw [clauseKind?, clauseKeyword?, hsplit] at h
      cases hkeyword : head.element.isKeyword with
      | true => simp [hkeyword] at h
      | false => simp [nsClause, hsplit, hkeyword]

/-- and a clause of another kind on a single line, if it has no comment. -/
theorem nsClause_of_other {lay : Lay} {n : Node} (h : clauseKind? n = some .other) (column : Int) :
    nsClause lay column n = flat lay column n := by
  obtain ⟨cs, rfl⟩ := Node.list_of_clause h
  obtain ⟨leading, head, entries, hsplit⟩ := splitHead_of_clause h
  obtain ⟨hkeyword, hother⟩ := keyword_of_clause h hsplit
  simp only [nsClause, hsplit, if_pos hkeyword, if_pos hother]

/-- The page of a clause whose entries are laid out in one way or the other. -/
def entriesPage (l : Lay) (column : Int) (leading : List Item) (head : Item)
    (entries : List Item) : Page :=
  ledPage (layout .standard) l l { arguments := 1 } column leading head entries

section

variable {cs : List Node} {kind : ClauseKind} (hkind : clauseKind? (.list cs) = some kind)
  {leading entries : List Item} {head : Item}
  (hsplit : Item.splitHead (Item.group cs) = (leading, some head, entries))

include hkind hsplit

/-- Below a declaration a clause comes out as a page with its entries on single lines. -/
theorem shows_nsClause (hother : kind ≠ .other) (column : Int) :
    (nsClause (layout .standard) column (.list cs)).Shows .list
      (entriesPage (flat (layout .standard)) column leading head entries) := by
  obtain ⟨hkeyword, hof⟩ := keyword_of_clause hkind hsplit
  have hof : ¬ ClauseKind.ofKeyword head.element.text = .other := hof ▸ hother
  obtain ⟨hnode, hhoisted⟩ := shows_call (layout .standard) (flat (layout .standard))
    (flat (layout .standard)) { arguments := 1 } column (isComment_of_splitHead hsplit) entries
  simp only [nsClause, hsplit, if_pos hkeyword, if_neg hof]
  exact ⟨hnode, congrArg (leadingComments leading ++ ·) hhoisted⟩

/-- Anywhere else a clause comes out as an ordinary call. -/
theorem shows_keyword (column : Int) :
    (layout .standard column (.list cs)).Shows .list
      (entriesPage (layout .standard) column leading head entries) := by
  obtain ⟨hkeyword, -⟩ := keyword_of_clause hkind hsplit
  have hrule : Table.ruleFor? .standard head = none := by
    cases hrule : Table.ruleFor? .standard head with
    | none => rfl
    | some rule =>
      -- No name in the table is a keyword.
      obtain ⟨name, helement, -, hmem⟩ := mem_of_ruleFor hrule
      have hnames : ∀ entry ∈ Table.standard, (Node.atom entry.1).isKeyword = false := by decide
      rw [helement, hnames _ hmem] at hkeyword
      cases hkeyword
  have hform : listForm? .standard (Item.group cs) = some .ordinary := by
    simp only [listForm?, hsplit, headForm?, hrule]
  have hplan : plainPlan? .standard .list (Item.group cs) = some (.headed .ordinary) := by
    rw [plainPlan?, hform]
    rfl
  have hshows := shows_plain rfl hplan column
  rw [Plan.page, hsplit] at hshows
  exact hshows

end

section

variable {cs : List Node} {leading entries : List Item} {head : Item}
  (hsplit : Item.splitHead (Item.group cs) = (leading, some head, entries))

include hsplit

/-- The page of a clause lays out its items, the entries among them, at columns from the bound on.
    -/
theorem laid_entries {l : Lay} (hl : EntryLay l) {low column : Int} (hlow : low ≤ 0)
    (hc : low ≤ column) :
    (entriesPage l column leading head entries).Laid (fun l c => EntryLay l ∧ low ≤ c) low
      (Item.group cs) := by
  obtain ⟨hleading, hhead, hitems, -⟩ := Item.splitHead_spec hsplit
  have hserves : ∀ {l : Lay}, EntryLay l → Serves (fun l c => EntryLay l ∧ low ≤ c) low l :=
    fun hl => ⟨hl.face, fun _ hc => ⟨hl, hc⟩⟩
  rw [hitems]
  exact laid_led hlow (hserves (.inl rfl)) (hserves hl) (hserves hl) hc (by rintro _ ⟨⟩) hleading
    (hhead head rfl) entries

variable (hclear : Clear (.list cs))

include hclear

/-- So what shows the page resembles the clause, -/
theorem resembles_entries {l : Lay} (hl : EntryLay l) {column : Int} {r : Rendered}
    (hshows : r.Shows .list (entriesPage l column leading head entries)) :
    Resembles r.node (.list cs) := by
  obtain ⟨low, hlow, hc⟩ := exists_low column
  have hlaid := laid_entries hsplit hl hlow hc
  exact Namespace.resembles_page hshows hlaid.flows (fun i hi => (hclear.items i hi).1)
    hlaid.account

/-- and its children are grouped into the items of the page again. -/
theorem group_entries {l : Lay} (hl : EntryLay l) (column : Int) :
    (∀ i ∈ (entriesPage l column leading head entries).script.items, i.Plain) ∧
      Item.group (entriesPage l column leading head entries).children =
        (entriesPage l column leading head entries).script.items := by
  obtain ⟨low, hlow, hc⟩ := exists_low column
  have hlaid := laid_entries hsplit hl hlow hc
  obtain ⟨ps, h⟩ := hlaid.account
  have hplain := plain_of_accounts h fun i hi => (hclear.items i hi).1
  exact ⟨hplain, group_children hlaid.flows hplain⟩

variable (hholds : ∀ i ∈ entries, i.isComment = false → HoldsPlace i.element)

include hholds

/-- What is known of the entries of a clause. -/
theorem entry_of_clause {i : Item} (hi : i ∈ entries) (hnot : i.isComment = false) :
    Clear i.element ∧ i.element.isForm = true ∧ HoldsPlace i.element := by
  obtain ⟨-, -, hitems, -⟩ := Item.splitHead_spec hsplit
  have hmem : i ∈ Item.group cs := by
    rw [hitems]
    exact List.mem_append_right _ (List.mem_append_right _ hi)
  obtain ⟨hform, hclear⟩ := (hclear.items i hmem).2 hnot
  exact ⟨hclear, hform, hholds i hi hnot⟩

/-- The page of a clause that came out as a page is that page. -/
theorem entriesPage_again {l : Lay} (hl : EntryLay l) (column : Int) :
    ∃ j more,
      (entriesPage l column leading head entries).script.items = j :: more ∧
      j.isComment = false ∧
      entriesPage l column [] j more =
        ⟨(entriesPage l column leading head entries).script, [],
          (entriesPage l column leading head entries).margin⟩ := by
  have hhead := isComment_of_splitHead hsplit
  have hplain : KeepsFace (layout .standard) := faithful_layout .standard .plain
  have hrests : Rests (layout .standard) head := by
    obtain ⟨-, -, hitems, -⟩ := Item.splitHead_spec hsplit
    have hmem : head ∈ Item.group cs := by rw [hitems]; simp
    obtain ⟨hform, hclear⟩ := (hclear.items head hmem).2 hhead
    exact rests_of_steady hplain fun _ c => hclear.steady hform c
  have hentries : ∀ i ∈ entries, Rests l i := fun i hi => rests_of_steady hl.face fun hnot c => by
    obtain ⟨hclear, hform, hholds⟩ := entry_of_clause hsplit hclear hholds hi hnot
    exact steady_entry hclear hform hholds hl c
  obtain ⟨j, more, hitems, hj, hagain⟩ := callPage_again hplain hl.face hl.face { arguments := 1 }
    column hhead hrests hentries hentries
  refine ⟨j, more, hitems, hj, ?_⟩
  rw [entriesPage, ledPage, hagain]
  rfl

/-- **Clauses are steady** below a declaration if their entries hold their places. -/
theorem steady_clause {kind : ClauseKind} (hkind : clauseKind? (.list cs) = some kind)
    (hother : kind ≠ .other) (column : Int) :
    Steady (nsClause (layout .standard)) column (.list cs) := by
  have hl : EntryLay (flat (layout .standard)) := .inr rfl
  have hshows := shows_nsClause hkind hsplit hother column
  obtain ⟨j, more, hitems, hj, hagain⟩ := entriesPage_again hsplit hclear hholds hl column
  have hkind' := (resembles_entries hsplit hclear hl hshows).clauseKind.trans hkind
  have hsplit' : Item.splitHead (Item.group
      (entriesPage (flat (layout .standard)) column leading head entries).children) =
        ([], some j, more) := by
    rw [(group_entries hsplit hclear hl column).2, hitems, splitHead_cons hj]
  rw [hshows.node] at hkind'
  obtain ⟨hnode', hhoisted'⟩ := shows_nsClause hkind' hsplit' hother column
  rw [hagain] at hnode' hhoisted'
  exact ⟨by rw [hshows.node, hnode']; rfl, by rw [hshows.node, hhoisted']⟩

/-- A clause in canonical order that came out as a page has the items it has in canonical order. -/
theorem group_clause {l : Lay} (hl : EntryLay l) {kind : ClauseKind}
    (hkind : clauseKind? (.list cs) = some kind) (hcanonical : Canonical kind entries)
    {column : Int} {r : Rendered}
    (hshows : r.Shows .list (entriesPage l column leading head entries)) :
    ∃ ds ds', r.node = .list ds ∧ normalizeClause r.node = .list ds' ∧
      Item.group ds' = Item.group ds := by
  obtain ⟨low, hlow, hc⟩ := exists_low column
  have haccount := (laid_entries hsplit hl hlow hc).account
  obtain ⟨hplain, hgroup⟩ := group_entries hsplit hclear hl column
  have hkind' := (resembles_entries hsplit hclear hl hshows).clauseKind.trans hkind
  rw [hshows.node] at hkind' ⊢
  obtain ⟨leading', head', entries', hsplit'⟩ := splitHead_of_clause hkind'
  rw [hgroup] at hsplit'
  rw [← hgroup] at hplain
  have hcanonical' : Canonical kind entries' :=
    Namespace.canonical_of_account haccount hsplit hsplit' hcanonical fun l c hsite i hi hnot => by
      obtain ⟨hclear, hform, hholds⟩ := entry_of_clause hsplit hclear hholds hi hnot
      exact keepsPlace_entry hclear hform hholds hsite.1 c
  obtain ⟨ds', hnormal, hsame⟩ := Namespace.group_normalizeClause hplain hkind' fun _ => by
    rw [hgroup, hsplit']
    exact hcanonical'
  exact ⟨_, ds', rfl, hnormal, hsame⟩

end

/-! ## Elements of declarations -/

/-- Laid out, an element of a declaration keeps what canonical order and single lines look at: no
    namespace is declared inside, there is a comment left in another clause that has one, and
    entries in canonical form hold their places. -/
structure Steadfast (n : Node) : Prop where
  noNamespace : (∀ kind, clauseKind? n = some kind → kind = .other) →
    n.lacks Node.declaresNamespace = true
  other : clauseKind? n = some .other → KeepsComment n
  entries : ∀ cs kind, n = .list cs → clauseKind? n = some kind → kind ≠ .other →
    ∀ i ∈ (Item.splitHead (Item.group cs)).2.2, i.isComment = false →
      (kind.entry i.element).lacks Node.declaresNamespace = true ∧
        HoldsPlace (kind.entry i.element)

/-- A leaf is no clause. -/
theorem steadfast_leaf (kind : LeafKind) (text : String) : Steadfast (.leaf kind text) where
  noNamespace _ := rfl
  other := by rintro ⟨⟩
  entries := by rintro cs _ ⟨⟩

/-- A clause with entries is steadfast if its entries hold their places. -/
theorem steadfast_clause {cs : List Node} {kind : ClauseKind} {leading entries : List Item}
    {head : Option Item} (hkind : clauseKind? (.list cs) = some kind) (hother : kind ≠ .other)
    (hsplit : Item.splitHead (Item.group cs) = (leading, head, entries))
    (h : ∀ i ∈ entries, i.isComment = false →
      (kind.entry i.element).lacks Node.declaresNamespace = true ∧
        HoldsPlace (kind.entry i.element)) : Steadfast (.list cs) := by
  refine ⟨fun hall => absurd (hall kind hkind) hother,
    fun hsome => absurd (Option.some.inj (hkind.symm.trans hsome)) hother, ?_⟩
  intro ds kind' hds hsome _ i hi hnot
  obtain rfl : kind = kind' := Option.some.inj (hkind.symm.trans hsome)
  injection hds with _ hds
  subst hds
  rw [hsplit] at hi
  exact h i hi hnot

/-- A steadfast element of a declaration in canonical order. -/
structure Firm (n : Node) : Prop where
  clear : Clear n
  form : n.isForm = true
  steadfast : Steadfast n
  canonical : ∀ cs kind, n = .list cs → clauseKind? n = some kind → kind ≠ .other →
    Canonical kind (Item.splitHead (Item.group cs)).2.2

/-- The layouts of the elements of a declaration. -/
def ElementLay (l : Lay) : Prop := l = layout .standard ∨ l = nsClause (layout .standard)

/-- Both layouts of elements keep faces. -/
theorem ElementLay.face {l : Lay} (h : ElementLay l) : KeepsFace l := by
  have hlay := faithful_layout .standard .plain
  rcases h with rfl | rfl
  · exact hlay
  · exact keepsFace_nsClause hlay

namespace Firm

variable {n : Node} (h : Firm n)

include h

/-- An element is no clause, or another clause, or one with entries. -/
theorem cases : clauseKind? n = none ∨ clauseKind? n = some .other ∨
    ∃ cs kind leading head entries, n = .list cs ∧ clauseKind? (.list cs) = some kind ∧
      kind ≠ .other ∧ Item.splitHead (Item.group cs) = (leading, some head, entries) ∧
      Canonical kind entries ∧ ∀ i ∈ entries, i.isComment = false → HoldsPlace i.element := by
  cases hkind : clauseKind? n with
  | none => exact .inl rfl
  | some kind =>
    by_cases hother : kind = .other
    · subst hother
      exact .inr (.inl rfl)
    · obtain ⟨cs, rfl⟩ := Node.list_of_clause hkind
      obtain ⟨leading, head, entries, hsplit⟩ := splitHead_of_clause hkind
      have hcanonical := h.canonical cs kind rfl hkind hother
      have hentries := h.steadfast.entries cs kind rfl hkind hother
      rw [hsplit] at hcanonical hentries
      refine .inr (.inr ⟨cs, kind, leading, head, entries, rfl, hkind, hother, hsplit, hcanonical,
        fun i hi hnot => ?_⟩)
      rw [← hcanonical.entry i hi]
      exact (hentries i hi hnot).2

/-- It comes out resembling itself, -/
theorem resembles {l : Lay} (hl : ElementLay l) (column : Int) :
    Resembles (l column n).node n := by
  rcases hl with rfl | rfl
  · exact h.clear.resembles column
  · rcases h.cases with hkind | hkind | ⟨cs, kind, leading, head, entries, rfl, hkind, hother,
      hsplit, -⟩
    · rw [nsClause_of_none hkind]
      exact h.clear.resembles column
    · rw [nsClause_of_other hkind]
      exact resembles_flat h.clear column
    · exact resembles_entries hsplit h.clear (.inr rfl) (shows_nsClause hkind hsplit hother column)

/-- **Elements of a declaration are steady.** -/
theorem steady {l : Lay} (hl : ElementLay l) (column : Int) : Steady l column n := by
  rcases hl with rfl | rfl
  · exact h.clear.steady h.form column
  · rcases h.cases with hkind | hkind | ⟨cs, kind, leading, head, entries, rfl, hkind, hother,
      hsplit, -, hholds⟩
    · have hkind' := (h.clear.resembles column).clauseKind.trans hkind
      obtain ⟨hnode, hhoisted⟩ := h.clear.steady h.form column
      constructor
      · rw [nsClause_of_none hkind, nsClause_of_none hkind', hnode]
      · rw [nsClause_of_none hkind, nsClause_of_none hkind', hhoisted]
    · have hkind' := (resembles_flat h.clear column).clauseKind.trans hkind
      obtain ⟨hnode, hhoisted⟩ := steady_flat h.clear h.form (h.steadfast.other hkind) column
      constructor
      · rw [nsClause_of_other hkind, nsClause_of_other hkind', hnode]
      · rw [nsClause_of_other hkind, nsClause_of_other hkind', hhoisted]
    · exact steady_clause hsplit h.clear hholds hkind hother column

/-- and it can be read again. -/
theorem readable {l : Lay} (hl : ElementLay l) {column : Int} (hc : 0 ≤ column) :
    Readable (l column n) := by
  have hlay := readable_lay n h.clear.fit h.form .plain column hc
  rcases hl with rfl | rfl
  · exact hlay
  · rcases h.cases with hkind | hkind | ⟨cs, kind, leading, head, entries, rfl, hkind, hother,
      hsplit, -⟩
    · rw [nsClause_of_none hkind]
      exact hlay
    · rw [nsClause_of_other hkind]
      exact readable_flat h.clear h.form hc
    · have hlaid := laid_entries hsplit (.inr rfl) (Int.le_refl 0) hc
      have hfit : ∀ c ∈ cs, Fit c := fun c hc => (h.clear.children c hc).fit
      obtain ⟨hneat, hleaving⟩ := clean_page (made_of_fit hfit)
        (by
          rintro l c ⟨hl, hc⟩ i hi hnot
          obtain ⟨hform, hclear⟩ := (h.clear.items i hi).2 hnot
          rcases hl with rfl | rfl
          · exact readable_lay _ hclear.fit hform .plain c hc
          · exact readable_flat hclear hform hc)
        hlaid.account
      have hclean : Page.Clean (entriesPage (flat (layout .standard)) column leading head entries) :=
        ⟨hlaid.flows, hneat, hlaid.margin⟩
      exact hclean.readable hleaving rfl (shows_nsClause hkind hsplit hother column)

/-- **Canonical order changes nothing** of how an element that was laid out is laid out. -/
theorem unmoved {l : Lay} (hl : ElementLay l) (column : Int) {l' : Lay} (hl' : ElementLay l')
    (column' : Int) :
    l' column' (normalizeClause (l column n).node) = l' column' (l column n).node := by
  have hkind' := (h.resembles hl column).clauseKind
  rcases h.cases with hkind | hkind | ⟨cs, kind, leading, head, entries, rfl, hkind, hother,
    hsplit, hcanonical, hholds⟩
  · rw [Namespace.normalizeClause_of_none (hkind'.trans hkind)]
  · rw [Namespace.normalizeClause_of_other (hkind'.trans hkind)]
  · have hsame : ∃ ds ds', (l column (.list cs)).node = .list ds ∧
        normalizeClause (l column (.list cs)).node = .list ds' ∧
        Item.group ds' = Item.group ds := by
      rcases hl with rfl | rfl
      · exact group_clause hsplit h.clear hholds (.inl rfl) hkind hcanonical
          (shows_keyword hkind hsplit column)
      · exact group_clause hsplit h.clear hholds (.inr rfl) hkind hcanonical
          (shows_nsClause hkind hsplit hother column)
    obtain ⟨ds, ds', hnode, hnormal, hgroup⟩ := hsame
    rw [hnormal, hnode]
    rcases hl' with rfl | rfl
    · exact layout_of_group hgroup column'
    · exact nsClause_of_group hgroup column'

end Firm

end Layout

end CljTidy
