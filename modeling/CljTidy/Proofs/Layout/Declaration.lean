/-
  Every collection is a page.

  A namespace declaration has no plan, but it is a page all the same: a call whose items behind the
  head are in canonical order, with clauses laid out in a way of their own; a clause of libraries or
  imports is a call whose entries stay on single lines.  So under any table a collection comes out
  as a page that accounts for its items, perhaps in canonical order, and whose gaps fit
  (`exists_page`), and what a clause can come out as is said once (`nsClause_cases`).  A law that
  goes from the elements to their page is therefore obeyed by every collection of smaller things
  that obey it (`PageLaw.collection`).
-/
import CljTidy.Proofs.Layout.Flow
import CljTidy.Proofs.Namespace.Content

namespace CljTidy.Layout

/-! ## Pages that are laid out -/

/-- A page made of items: it accounts for them, its gaps fit, and no line goes left of a bound. -/
structure Page.Laid (site : Lay → Int → Prop) (low : Int) (items : List Item) (p : Page) :
    Prop where
  account : Account site items p.script.items p.leaving
  flows : Flows low none p.script
  margin : low ≤ p.margin

/-- A call below the comments in front of its head, which leave it. -/
def ledPage (lay argumentLay bodyLay : Lay) (style : CallStyle) (column : Int)
    (leading : List Item) (head : Item) (items : List Item) : Page :=
  let p := callPage lay argumentLay bodyLay style column head items
  { p with leaving := leadingComments leading ++ p.leaving }

/-- The page of a declaration: the items behind the head are in canonical order. -/
def nsPage (lay : Lay) (column : Int) (leading : List Item) (head : Item) (rest : List Item) :
    Page :=
  ledPage lay lay (nsClause lay) { arguments := 1, bodyColumn := some (column + 2) } column leading
    head (Namespace.normalizeDeclarations rest)

/-- The page of a clause of libraries or imports: its entries stay on single lines. -/
def clausePage (lay : Lay) (column : Int) (leading : List Item) (head : Item)
    (entries : List Item) : Page :=
  ledPage lay (flat lay) (flat lay) { arguments := 1 } column leading head entries

section

variable {site : Lay → Int → Prop} {low : Int} (hlow : low ≤ 0)

include hlow

/-- The page of a call is laid out from its comments, its head and the items behind it. -/
theorem laid_led {lay argumentLay bodyLay : Lay} (hlay : Serves site low lay)
    (hargument : Serves site low argumentLay) (hbodyLay : Serves site low bodyLay)
    {style : CallStyle} {column : Int} (hc : low ≤ column)
    (hbody : ∀ c ∈ style.bodyColumn, low ≤ c) {leading : List Item}
    (hleading : ∀ i ∈ leading, i.isComment = true) {head : Item} (hhead : head.isComment = false)
    (items : List Item) :
    (ledPage lay argumentLay bodyLay style column leading head items).Laid site low
      (leading ++ head :: items) := by
  have hleave : Account site leading [] (leadingComments leading) := Account.leave hleading
  have hcall := Account.call hlow hlay hargument hbodyLay hc hbody hhead items
  obtain ⟨hflows, hmargin⟩ :=
    flows_call hlay.face hargument.face bodyLay hlow hc hbody hhead items
  exact ⟨hleave.append hcall, hflows, hmargin⟩

/-- So is every page that a plan makes. -/
theorem laid_plan {lay : Lay} (hlay : ∀ place : Place, Serves site low (place.lay lay))
    {plan : Plan} (hplan : plan.Indents) {column : Int} (hc : low ≤ column) (b : Bracket)
    (items : List Item) : (plan.page lay column b items).Laid site low items := by
  obtain ⟨hflows, hmargin⟩ :=
    flows_page (fun place => (hlay place).face) hplan hlow hc b items
  exact ⟨account_page hlay hplan hlow hc b items, hflows, hmargin⟩

end

/-! ## Single lines and clauses -/

theorem keepsFace_flat {lay : Lay} (h : KeepsFace lay) : KeepsFace (flat lay) := by
  intro column n
  unfold flat
  split
  · exact h column n
  · exact Node.face_flatten n

/-- A clause comes out as it does anywhere, or on a single line, or as a page, at every column. -/
theorem nsClause_cases (lay : Lay) (n : Node) :
    (∀ column, nsClause lay column n = lay column n) ∨
    (∀ column, nsClause lay column n = flat lay column n) ∨
    ∃ cs leading head entries, n = .list cs ∧
      Item.splitHead (Item.group cs) = (leading, some head, entries) ∧
      ∀ column, (nsClause lay column n).Shows .list
        (clausePage lay column leading head entries) := by
  by_cases hlist : ∃ cs, n = .list cs
  · obtain ⟨cs, rfl⟩ := hlist
    rcases hsplit : Item.splitHead (Item.group cs) with ⟨leading, head?, entries⟩
    cases head? with
    | none => exact .inl fun column => by simp only [nsClause, hsplit]
    | some head =>
      -- A page only comes of a list whose head is a keyword for libraries or imports.
      by_cases hkeyword : head.element.isKeyword = true
      · by_cases hother : Namespace.ClauseKind.ofKeyword head.element.text = .other
        · refine .inr (.inl fun column => ?_)
          simp only [nsClause, hsplit, if_pos hkeyword, if_pos hother]
        · refine .inr (.inr ⟨cs, leading, head, entries, rfl, hsplit, fun column => ?_⟩)
          obtain ⟨hnode, hhoisted⟩ := shows_call lay (flat lay) (flat lay) { arguments := 1 } column
            (isComment_of_splitHead hsplit) entries
          simp only [nsClause, hsplit, if_pos hkeyword, if_neg hother]
          exact ⟨hnode, congrArg (leadingComments leading ++ ·) hhoisted⟩
      · exact .inl fun column => by simp only [nsClause, hsplit, if_neg hkeyword]
  · refine .inl fun column => ?_
    unfold nsClause
    split
    · exact absurd ⟨_, rfl⟩ hlist
    · rfl

/-- A clause comes out with its face. -/
theorem keepsFace_nsClause {lay : Lay} (h : KeepsFace lay) : KeepsFace (nsClause lay) := by
  intro column n
  rcases nsClause_cases lay n with hr | hr | ⟨cs, leading, head, entries, rfl, -, hr⟩
  · rw [hr]
    exact h column n
  · rw [hr]
    exact keepsFace_flat h column n
  · rw [(hr column).node]
    rfl

/-! ## Collections -/

/-- The items a collection is laid out from: those of its children, or those with what is behind the
    head in canonical order. -/
def Arranged (items : List Item) (children : List Node) : Prop :=
  items = Item.group children ∨
    ∃ leading head rest, Item.splitHead (Item.group children) = (leading, some head, rest) ∧
      items = leading ++ head :: Namespace.normalizeDeclarations rest

namespace Arranged

variable {items : List Item} {children : List Node} (h : Arranged items children)

include h

/-- Arranged items have the comments of the children, in some order. -/
theorem allComments : (Item.allComments items).Perm (Node.commentTextsAll children) := by
  rcases h with rfl | ⟨leading, head, rest, hsplit, rfl⟩
  · exact Item.allComments_group children
  · obtain ⟨-, -, hitems, -⟩ := Item.splitHead_spec hsplit
    refine .trans ?_ (Item.allComments_group children)
    rw [hitems, ← List.singleton_append, Item.allComments_append, Item.allComments_append,
      Item.allComments_append, Item.allComments_append]
    exact ((Namespace.allComments_normalizeDeclarations rest).append_left _).append_left _

/-- Elements are not deeper than the children. -/
theorem rank_le {i : Item} (hi : i ∈ items) : rank i.element ≤ rankAll children := by
  rcases h with rfl | ⟨leading, head, rest, hsplit, rfl⟩
  · exact rank_element hi
  · obtain ⟨hhead, hrest, hleading⟩ := within_splitHead (within_group children) hsplit
    rcases List.mem_append.mp hi with hi | hi
    · exact Nat.le_trans (rank_le_weight _) (hleading i hi)
    · rcases List.mem_cons.mp hi with rfl | hi
      · exact Nat.le_trans (rank_le_weight _) hhead
      · exact Nat.le_of_lt_succ (below_normalizeDeclarations hrest i hi)

/-- Items are made of what lacks a kind of node, if the children lack it. -/
theorem made {kind : Node → Bool} (hkind : Foreign kind)
    (hchildren : ∀ c ∈ children, c.lacks kind = true) :
    ∀ i ∈ items,
      i.Made (fun n => n.lacks kind = true) fun text => kind (.comment text) = false := by
  have hgroup := hkind.made_group hchildren
  rcases h with rfl | ⟨leading, head, rest, hsplit, rfl⟩
  · exact hgroup
  · obtain ⟨-, -, hitems, -⟩ := Item.splitHead_spec hsplit
    rw [hitems] at hgroup
    obtain ⟨hleading, hbehind⟩ := List.forall_mem_append.mp hgroup
    obtain ⟨hhead, hrest⟩ := List.forall_mem_append.mp hbehind
    refine List.forall_mem_append.mpr ⟨hleading, List.forall_mem_cons.mpr ⟨?_, ?_⟩⟩
    · exact hhead head (by simp)
    · exact Namespace.made_normalizeDeclarations hkind hrest

end Arranged

/-- A list whose head has the rule for declarations is written as the page of one. -/
theorem shows_ns {table : Table} {lay : Lay} {children : List Node} {leading rest : List Item}
    {head : Item} (hsplit : Item.splitHead (Item.group children) = (leading, some head, rest))
    (hrule : table.ruleFor? head = some .ns) (column : Int) :
    (list table lay column children).Shows .list (nsPage lay column leading head rest) := by
  obtain ⟨hnode, hhoisted⟩ := shows_call lay lay (nsClause lay)
    { arguments := 1, bodyColumn := some (column + 2) } column (isComment_of_splitHead hsplit)
    (Namespace.normalizeDeclarations rest)
  unfold list
  rw [hsplit]
  simp only [hrule]
  exact ⟨hnode, congrArg (leadingComments leading ++ ·) hhoisted⟩

/-- **Collections are pages**, declarations included. -/
theorem exists_page {table : Table} {site : Lay → Int → Prop} {low : Int} (hlow : low ≤ 0)
    (hlay : ∀ place : Place, Serves site low (place.lay (layout table)))
    (hclause : Serves site low (nsClause (layout table))) {b : Bracket}
    (hb : b.isCollection = true) (children : List Node) (place : Place) {column : Int}
    (hc : low ≤ column) :
    ∃ page items, Arranged items children ∧
      (place.lay (layout table) column (.branch b children)).Shows b page ∧
      page.Laid site low items := by
  cases hplan : place.plan? table b (Item.group children) with
  | some plan =>
    exact ⟨_, _, .inl rfl, shows_layout hb hplan column,
      laid_plan hlow hlay (indents_plan hplan) hc b (Item.group children)⟩
  | none =>
    -- What has no plan is a declaration.
    obtain ⟨rfl, hform, hlist⟩ := lay_of_no_plan hplan
    obtain ⟨leading, head, rest, hsplit, hrule⟩ := ns_of_no_form hform
    obtain ⟨hleading, hhead, -, -⟩ := Item.splitHead_spec hsplit
    have hbody : ∀ c ∈ some (column + 2), low ≤ c := by
      rintro c ⟨⟩
      omega
    refine ⟨nsPage (layout table) column leading head rest, _,
      .inr ⟨leading, head, rest, hsplit, rfl⟩, ?_, ?_⟩
    · rw [hlist]
      exact shows_ns hsplit hrule column
    · exact laid_led hlow (hlay .plain) (hlay .plain) hclause hc hbody hleading
        (hhead head rfl) _

/-- A clause of libraries or imports is a page. -/
theorem laid_clause {site : Lay → Int → Prop} {low : Int} (hlow : low ≤ 0) {lay : Lay}
    (hlay : Serves site low lay) (hflat : Serves site low (flat lay)) {cs : List Node}
    {leading entries : List Item} {head : Item}
    (hsplit : Item.splitHead (Item.group cs) = (leading, some head, entries)) {column : Int}
    (hc : low ≤ column) :
    (clausePage lay column leading head entries).Laid site low (Item.group cs) := by
  obtain ⟨hleading, hhead, hitems, -⟩ := Item.splitHead_spec hsplit
  rw [hitems]
  exact laid_led hlow hlay hflat hflat hc (by rintro c ⟨⟩) hleading (hhead head rfl) entries

/-! ## Laws of pages -/

section

variable (K : Node → Prop) (G : Rendered → Node → Prop)

/-- The sites where everything of the kind `K` that has at most the given rank comes out as `G`
    says. -/
def Right (r : Nat) : Lay → Int → Prop := fun l column => ∀ n, rank n ≤ r → K n → G (l column n) n

/-- A law that pages obey if their elements do, and that single lines obey. -/
structure PageLaw : Prop where
  page : ∀ ⦃r : Nat⦄ ⦃low : Int⦄ ⦃b : Bracket⦄ ⦃children : List Node⦄ ⦃items : List Item⦄
    ⦃page : Page⦄ ⦃rendered : Rendered⦄, K (.branch b children) → Arranged items children →
    (∀ i ∈ items, rank i.element ≤ r) → rendered.Shows b page →
    page.Laid (Right K G r) low items → G rendered (.branch b children)
  single : ∀ ⦃n : Node⦄, K n → n.containsComment = false → G { node := n.flatten } n

end

namespace PageLaw

variable {K : Node → Prop} {G : Rendered → Node → Prop} (law : PageLaw K G)

include law

/-- What goes on a single line comes out right if everything else does. -/
theorem serves_flat {r : Nat} {low : Int} {lay : Lay} (hlay : Serves (Right K G r) low lay) :
    Serves (Right K G r) low (flat lay) := by
  refine ⟨keepsFace_flat hlay.face, fun c hc n hn hk => ?_⟩
  unfold flat
  cases hcomment : n.containsComment with
  | true => exact hlay.site c hc n hn hk
  | false => exact law.single hk hcomment

/-- Clauses come out right where everything else does. -/
theorem serves_nsClause {r : Nat} {low : Int} (hlow : low ≤ 0) {lay : Lay}
    (hlay : Serves (Right K G r) low lay) : Serves (Right K G r) low (nsClause lay) := by
  have hflat := law.serves_flat hlay
  refine ⟨keepsFace_nsClause hlay.face, fun c hc n hn hk => ?_⟩
  rcases nsClause_cases lay n with h | h | ⟨cs, leading, head, entries, rfl, hsplit, hshows⟩
  · rw [h]
    exact hlay.site c hc n hn hk
  · rw [h]
    exact hflat.site c hc n hn hk
  · refine law.page hk (.inl rfl) (fun i hi => ?_) (hshows c)
      (laid_clause hlow hlay hflat hsplit hc)
    have hdeep := rank_element hi
    rw [rank] at hn
    omega

variable {table : Table}

/-- Collections come out right if everything of smaller rank does. -/
theorem collection {b : Bracket} (hb : b.isCollection = true) {children : List Node}
    (hk : K (.branch b children))
    (ih : ∀ n : Node, rank n ≤ rankAll children → K n → ∀ (place : Place) (column : Int),
      G (place.lay (layout table) column n) n) (place : Place) (column : Int) :
    G (place.lay (layout table) column (.branch b children)) (.branch b children) := by
  obtain ⟨low, hlow, hc⟩ := exists_low column
  have hlay : ∀ place : Place,
      Serves (Right K G (rankAll children)) low (place.lay (layout table)) :=
    fun place => ⟨faithful_layout table place, fun c _ n hn hk => ih n hn hk place c⟩
  obtain ⟨page, items, harranged, hshows, hlaid⟩ :=
    exists_page hlow hlay (law.serves_nsClause hlow (hlay .plain)) hb children place hc
  exact law.page hk harranged (fun i hi => harranged.rank_le hi) hshows hlaid

end PageLaw

end CljTidy.Layout
