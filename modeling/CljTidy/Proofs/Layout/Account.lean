/-
  Nothing is lost on a page.

  An account of a page says how and where every element of the items was laid out: the elements come
  out in the order they came in, and the comments of the page and those that leave it are, in some
  order and in their tidy form, the comments of the items and those that left the elements.
  Accounts of parts are put together by `Account.append`, and comments that would leave may be
  written above instead (`Account.above`); with these every plan has an account (`account_page`).
  A page that starts at a column is laid out at no column left of a bound on that column and on the
  margin.
-/
import CljTidy.Proofs.Item.Grouping
import CljTidy.Proofs.Layout.Plan

namespace CljTidy.Layout

/-! ## Columns -/

/-- Writing does not lead left of a column that is not right of the margin. -/
theorem le_endColumn {low column : Int} (hlow : low ≤ 0) (h : low ≤ column) (text : String) :
    low ≤ endColumn column text := by
  unfold endColumn
  induction text.toList generalizing column with
  | nil => exact h
  | cons c cs ih =>
    rw [List.foldl_cons]
    apply ih
    split <;> omega

/-- Indentation leads as far to the right as it is wide. -/
theorem endColumn_indentation {width : Int} (hw : 0 ≤ width) (column : Int) :
    endColumn column (indentation width) = column + width := by
  obtain ⟨n, rfl⟩ := Int.eq_ofNat_of_zero_le hw
  unfold endColumn indentation
  rw [Int.toNat_natCast, String.toList_ofList]
  clear hw
  induction n generalizing column with
  | zero => exact (Int.add_zero column).symm
  | succ n ih =>
    rw [List.replicate_succ, List.foldl_cons, ih, if_neg (by decide)]
    omega

/-- A line break and the indentation behind it, as text. -/
theorem textAll_line (column : Int) (blank : Bool) :
    Node.textAll (Gap.line column blank).nodes =
      (if blank then "\n" else "") ++ ("\n" ++ indentation column) := by
  by_cases hzero : column = 0
  · subst hzero
    cases blank <;> rfl
  · cases blank <;> simp [Gap.nodes, Buffer.breakNodes, hzero, Node.textAll, Node.text]

/-- A line break leads to its column from everywhere. -/
theorem endColumn_line {target : Int} (inside : 0 ≤ target) (blank : Bool) (column : Int) :
    endColumn column (Node.textAll (Gap.line target blank).nodes) = target := by
  have hbreak : ∀ start : Int, endColumn start "\n" = 0 := fun _ => rfl
  rw [textAll_line, endColumn_append, endColumn_append, hbreak, endColumn_indentation inside,
    Int.zero_add]

/-- Nor does writing an item lead left of such a bound. -/
theorem le_ending {low column : Int} (hlow : low ≤ 0) (h : low ≤ column) (i : Item) :
    low ≤ i.ending column :=
  le_endColumn hlow h _

/-- There is a bound on the left of every column. -/
theorem exists_low (column : Int) : ∃ low : Int, low ≤ 0 ∧ low ≤ column :=
  ⟨min column 0, by omega, by omega⟩

/-! ## Faces -/

/-- Laying out keeps faces. -/
def KeepsFace (l : Lay) : Prop := ∀ (column : Int) (n : Node), (l column n).node.face = n.face

namespace KeepsFace

variable {l : Lay}

/-- What comes out is a comment if the node was one, -/
theorem isComment (h : KeepsFace l) (column : Int) (n : Node) :
    (l column n).node.isComment = n.isComment := by
  rw [← Node.isComment_face, h, Node.isComment_face]

/-- and a form if it was a form. -/
theorem isForm (h : KeepsFace l) (column : Int) (n : Node) :
    (l column n).node.isForm = n.isForm :=
  Node.isForm_of_face (h column n)

/-- A settled item is a comment if the item was one. -/
theorem isComment_settle (h : KeepsFace l) (column : Int) (i : Item) :
    (settle l column i).isComment = i.isComment := by
  unfold settle
  cases hi : i.isComment with
  | true => rfl
  | false => exact (h.isComment _ i.element).trans hi

/-- A settled item ends with a comment if it did. -/
theorem closesLine_settle (h : KeepsFace l) (column : Int) (i : Item) :
    (settle l column i).closesLine = i.closesLine := by
  unfold Item.closesLine
  rw [h.isComment_settle]
  cases hi : i.isComment with
  | true => rfl
  | false => simp [settle, hi]

end KeepsFace

/-- Laying out keeps faces, at every place. -/
def Faithful (lay : Lay) : Prop := ∀ place : Place, KeepsFace (place.lay lay)

/-- The layout of every table keeps faces. -/
theorem faithful_layout (table : Table) : Faithful (layout table) := face_lay table

/-! ## Accounts -/

/-- An element with its marker, and how and where it is laid out. -/
structure Placing where
  lay : Lay
  column : Int
  element : Node
  marker : Option String

/-- How the element comes out. -/
def Placing.rendered (p : Placing) : Rendered := p.lay p.column p.element

/-- The items `items` went into the items `out` and the comments `leaving`, and elements were laid
    out in ways that keep faces and at sites of the given kind only.  Comments come out on their
    own, nothing comes of nothing, and an element that stood last still does. -/
structure Accounts (site : Lay → Int → Prop) (ps : List Placing) (items out : List Item)
    (leaving : List String) : Prop where
  input : Item.cores items = ps.map fun p => (p.element, p.marker)
  output : Item.cores out = ps.map fun p => (p.rendered.node, p.marker)
  comments : (Item.comments out ++ leaving.map Comment.tidy).Perm
    ((Item.comments items ++ ps.flatMap fun p => p.rendered.hoisted).map Comment.tidy)
  sites : ∀ p ∈ ps, KeepsFace p.lay ∧ site p.lay p.column
  plain : ∀ i ∈ out, i.isComment = true → i.marker = none ∧ i.comment = none
  empty : items = [] → out = [] ∧ leaving = []
  ends : Item.EndsOpen items → Item.EndsOpen out

namespace Accounts

variable {site : Lay → Int → Prop} {ps : List Placing} {items out : List Item}
  {leaving : List String} (h : Accounts site ps items out leaving)

include h

/-- What was laid out is an element of the items, -/
theorem placed {p : Placing} (hp : p ∈ ps) :
    ∃ i ∈ items, i.isComment = false ∧ i.core = (p.element, p.marker) :=
  Item.mem_cores (h.input ▸ List.mem_map_of_mem hp)

/-- Every element among the items that came out was laid out. -/
theorem landed {i : Item} (hi : i ∈ out) (hnot : i.isComment = false) :
    ∃ p ∈ ps, p.rendered.node = i.element ∧ p.marker = i.marker := by
  have hmem := Item.core_mem hi hnot
  rw [h.output] at hmem
  obtain ⟨p, hp, hcore⟩ := List.mem_map.mp hmem
  injection hcore with helement hmarker
  exact ⟨p, hp, helement, hmarker⟩

/-- and comes out with its face. -/
theorem face {p : Placing} (hp : p ∈ ps) : p.rendered.node.face = p.element.face :=
  (h.sites p hp).1 p.column p.element

/-- What is true of all elements as they come out, and of all comments, is true of the items. -/
theorem made {P P' : Node → Prop} {Q Q' : String → Prop} (hitems : ∀ i ∈ items, i.Made P' Q')
    (hps : ∀ p ∈ ps, p.element.isForm = true → P' p.element → P p.rendered.node)
    (hcomments : ∀ text ∈ Item.comments out, Q text) : ∀ i ∈ out, i.Made P Q := by
  intro i hi
  have htexts : ∀ text ∈ i.commentTexts, Q text :=
    fun text htext => hcomments text (List.mem_flatMap.mpr ⟨i, hi, htext⟩)
  cases hc : i.isComment with
  | true =>
    obtain ⟨hmarker, hcomment⟩ := h.plain i hi hc
    obtain ⟨element, marker, comment⟩ := i
    subst hmarker hcomment
    obtain ⟨text, rfl⟩ := Node.eq_comment hc
    have hmem : text ∈ (Item.mk (.comment text) none none).commentTexts := by
      simp [Item.commentTexts, Item.isComment, Node.isComment, Node.text]
    exact .comment (htexts text hmem)
  | false =>
    obtain ⟨element, marker, comment⟩ := i
    obtain ⟨p, hp, rfl, rfl⟩ := h.landed hi hc
    obtain ⟨j, hj, hnot, hplaced⟩ := h.placed hp
    cases hitems j hj with
    | comment => cases hnot
    | element form made marked =>
      injection hplaced with helement hmarker
      subst helement hmarker
      refine .element ?_ (hps p hp form made) marked fun text htext => htexts text ?_
      · exact (Node.isForm_of_face (h.face hp)).trans form
      · rw [Item.commentTexts_of_not hc]
        exact Option.mem_toList.mpr htext

end Accounts

/-- There is an account of how `items` went into `out` and `leaving`. -/
def Account (site : Lay → Int → Prop) (items out : List Item) (leaving : List String) : Prop :=
  ∃ ps, Accounts site ps items out leaving

/-- From the column `low` on, a way to lay out elements that keeps faces is at sites of the kind. -/
structure Serves (site : Lay → Int → Prop) (low : Int) (l : Lay) : Prop where
  face : KeepsFace l
  site : ∀ column, low ≤ column → site l column

/-- The sites at the places of a layout, from a column on. -/
def Somewhere (lay : Lay) (low : Int) : Lay → Int → Prop :=
  fun l column => low ≤ column ∧ ∃ place : Place, l = place.lay lay

/-- A layout that keeps faces serves at its places. -/
theorem serves_somewhere {lay : Lay} (h : Faithful lay) (low : Int) (place : Place) :
    Serves (Somewhere lay low) low (place.lay lay) :=
  ⟨h place, fun _ hc => ⟨hc, place, rfl⟩⟩

/-- Comments on lines of their own are comments in tidy form, -/
theorem comments_map_ofComment (texts : List String) :
    Item.comments (texts.map .ofComment) = texts.map Comment.tidy := by
  induction texts with
  | nil => rfl
  | cons text texts ih => exact congrArg (Comment.tidy text :: ·) ih

/-- and no elements. -/
theorem cores_map_ofComment (texts : List String) : Item.cores (texts.map .ofComment) = [] :=
  Item.cores_eq_nil_of_comments fun i hi => by
    obtain ⟨text, -, rfl⟩ := List.mem_map.mp hi
    rfl

namespace Account

variable {site : Lay → Int → Prop}

/-- Of nothing, nothing comes. -/
theorem nil : Account site [] [] [] :=
  ⟨[], rfl, rfl, .refl _, by simp, by simp, by simp, fun h => h⟩

/-- Accounts of two parts, one behind the other. -/
theorem append {items items' out out' : List Item} {leaving leaving' : List String}
    (h : Account site items out leaving) (h' : Account site items' out' leaving') :
    Account site (items ++ items') (out ++ out') (leaving ++ leaving') := by
  obtain ⟨ps, h⟩ := h
  obtain ⟨qs, h'⟩ := h'
  refine ⟨ps ++ qs, by simp [h.input, h'.input], by simp [h.output, h'.output], ?_, ?_, ?_, ?_, ?_⟩
  · have hboth := h.comments.append h'.comments
    simp only [Item.comments_append, List.map_append, List.flatMap_append] at hboth ⊢
    exact (perm_exchange ..).trans (hboth.trans (perm_exchange ..))
  · intro p hp
    rcases List.mem_append.mp hp with hp | hp
    · exact h.sites p hp
    · exact h'.sites p hp
  · intro i hi
    rcases List.mem_append.mp hi with hi | hi
    · exact h.plain i hi
    · exact h'.plain i hi
  · -- Nothing comes of no items.
    intro hnil
    obtain ⟨hi, hi'⟩ := List.append_eq_nil_iff.mp hnil
    simp [h.empty hi, h'.empty hi']
  · -- The end is that of the second part, unless it is empty.
    intro hends
    by_cases hnil : items' = []
    · obtain ⟨hout, -⟩ := h'.empty hnil
      rw [hnil, List.append_nil] at hends
      rw [hout, List.append_nil]
      exact h.ends hends
    · rw [Item.endsOpen_append hnil] at hends
      have hopen := h'.ends hends
      rw [Item.endsOpen_append hopen.ne_nil]
      exact hopen

/-- Only the elements and the comments of the items matter, and what stands last. -/
theorem of_content {items items' out : List Item} {leaving : List String}
    (h : Account site items out leaving) (hcores : Item.cores items' = Item.cores items)
    (hcomments : (Item.comments items').Perm (Item.comments items))
    (hempty : items' = [] → items = []) (hends : Item.EndsOpen items' → Item.EndsOpen items) :
    Account site items' out leaving := by
  obtain ⟨ps, h⟩ := h
  exact ⟨ps, hcores.trans h.input, h.output,
    h.comments.trans ((hcomments.symm.append (.refl _)).map Comment.tidy), h.sites, h.plain,
    fun hnil => h.empty (hempty hnil), fun hopen => h.ends (hends hopen)⟩

/-- Comments that would leave are written on lines above. -/
theorem above {items out : List Item} {leaving : List String} (h : Account site items out leaving) :
    Account site items (leaving.map .ofComment ++ out) [] := by
  obtain ⟨ps, h⟩ := h
  refine ⟨ps, h.input, by rw [Item.cores_append, cores_map_ofComment, List.nil_append, h.output], ?_,
    h.sites, ?_, ?_, ?_⟩
  · rw [Item.comments_append, comments_map_ofComment, List.map_nil, List.append_nil]
    exact List.perm_append_comm.trans h.comments
  · intro i hi
    rcases List.mem_append.mp hi with hi | hi
    · obtain ⟨text, -, rfl⟩ := List.mem_map.mp hi
      exact fun _ => ⟨rfl, rfl⟩
    · exact h.plain i hi
  · intro hnil
    obtain ⟨rfl, rfl⟩ := h.empty hnil
    exact ⟨rfl, rfl⟩
  · intro hends
    have hopen := h.ends hends
    rw [Item.endsOpen_append hopen.ne_nil]
    exact hopen

/-- A comment that stays. -/
theorem comment {i : Item} (hi : i.isComment = true) :
    Account site [i] [.ofComment i.element.text] [] := by
  refine ⟨[], Item.cores_cons_comment hi [], rfl, ?_, by simp, ?_, by simp, ?_⟩
  · have htexts : i.commentTexts = [i.element.text] := if_pos hi
    rw [Item.comments_cons i, htexts]
    exact .refl _
  · intro j hj
    obtain rfl := List.mem_singleton.mp hj
    exact fun _ => ⟨rfl, rfl⟩
  · intro hends
    rw [Item.endsOpen_singleton, Item.closesLine, hi] at hends
    cases hends

/-- Comments that leave. -/
theorem leave {items : List Item} (h : ∀ i ∈ items, i.isComment = true) :
    Account site items [] (leadingComments items) := by
  have hcomments : Item.comments items = leadingComments items := by
    induction items with
    | nil => rfl
    | cons i items ih =>
      have hi := h i (List.mem_cons_self ..)
      rw [Item.comments_cons, ih fun j hj => h j (List.mem_cons_of_mem _ hj), Item.commentTexts,
        if_pos hi]
      rfl
  refine ⟨[], Item.cores_eq_nil_of_comments h, rfl, by simp [hcomments], by simp, by simp, ?_, ?_⟩
  · rintro rfl
    exact ⟨rfl, rfl⟩
  · rintro ⟨i, hi, hopen⟩
    rw [Item.closesLine, h i (List.mem_of_getLast? hi)] at hopen
    cases hopen

section

variable {low : Int} {l : Lay} (hl : Serves site low l)

include hl

/-- An item whose comments are gathered. -/
theorem item {column : Int} (hc : low ≤ column) (i : Item) :
    Account site [i] [settle l column i] (leaving l column i) := by
  by_cases hi : i.isComment = true
  · simp only [settle, leaving, if_pos hi]
    exact comment hi
  have hnot : i.isComment = false := Bool.eq_false_iff.mpr hi
  have hsettle := (hl.face.isComment_settle column i).trans hnot
  have hwidth := markerWidth_nonneg i.marker
  refine ⟨[⟨l, column + Draft.markerWidth i.marker, i.element, i.marker⟩], ?_, ?_, ?_, ?_, ?_,
    by simp, ?_⟩
  · rw [Item.cores_cons_element hnot]
    rfl
  · rw [Item.cores_cons_element hsettle, settle, if_neg hi]
    rfl
  · simp only [Item.comments_cons, Item.comments_nil, List.append_nil, Item.commentTexts, hsettle,
      hnot, leaving]
    simp [settle, hi, Placing.rendered, Option.toList_map]
  · intro p hp
    obtain rfl := List.mem_singleton.mp hp
    refine ⟨hl.face, hl.site _ ?_⟩
    show low ≤ column + Draft.markerWidth i.marker
    omega
  · intro j hj hcomment
    obtain rfl := List.mem_singleton.mp hj
    rw [hsettle] at hcomment
    cases hcomment
  · rw [Item.endsOpen_singleton, Item.endsOpen_singleton, hl.face.closesLine_settle]
    exact id

/-- An item whose trailing comment leaves as well. -/
theorem moved {column : Int} (hc : low ≤ column) {i : Item} {text : String}
    (hi : i.isComment = false) (htext : i.comment = some text) :
    Account site [i] [settle l column i.bare] (leaving l column i.bare ++ [text]) := by
  have hcomment : Account site [⟨.comment text, none, none⟩] [] [text] := leave (by simp; rfl)
  have hboth := (item hl hc i.bare).append hcomment
  have hbare : i.bare.isComment = false := hi
  refine hboth.of_content ?_ ?_ (by simp) ?_
  · rw [Item.cores_cons_element hi, List.singleton_append, Item.cores_cons_element hbare]
    rfl
  · have htexts : i.commentTexts = [text] ∧ i.bare.commentTexts = [] := by
      unfold Item.commentTexts
      rw [if_neg (Bool.eq_false_iff.mp hi), if_neg (Bool.eq_false_iff.mp hbare), htext]
      exact ⟨rfl, rfl⟩
    rw [List.singleton_append, Item.comments_cons, Item.comments_cons, htexts.1, htexts.2]
    exact .refl _
  · intro hends
    rw [Item.endsOpen_singleton, Item.closesLine, htext] at hends
    simp at hends

/-- An item below the comments that leave it. -/
theorem settled {column : Int} (hc : low ≤ column) (i : Item) :
    Account site [i] (Layout.settled l column i) [] :=
  (item hl hc i).above

/-- Items below each other. -/
theorem settledAll {column : Int} (hc : low ≤ column) (items : List Item) :
    Account site items (items.flatMap (Layout.settled l column)) [] := by
  induction items with
  | nil => exact nil
  | cons i items ih => exact (settled hl hc i).append ih

variable (hlow : low ≤ 0)

include hlow

/-- A key and a value go below the comments that leave them. -/
theorem record {mid : Gap} {column : Int} (hc : low ≤ column)
    (hmid : ∀ c, low ≤ c → low ≤ mid.column c) (g : Gap) (r : Record) :
    Account site r.items (recordRows l mid column g r).items [] := by
  cases r with
  | comment text => exact comment (i := ⟨.comment text, none, none⟩) rfl
  | orphan i =>
    rw [recordRows, items_rows]
    exact settled hl hc i
  | pair key value =>
    have hkey := item hl hc key
    have hvalue := item hl (hmid _ (le_ending hlow hc (settle l column key))) value
    have hboth := (hkey.append hvalue).above
    simpa [recordRows, Record.items] using hboth

/-- Records account for the items they are made of: pairing keeps elements and comments. -/
theorem records (mid : Gap) {column : Int} (hc : low ≤ column)
    (hmid : ∀ c, low ≤ c → low ≤ mid.column c) (next : Record → Gap) (g : Gap) (items : List Item) :
    Account site items (recordScript l mid column next g (Record.ofItems items)).items [] := by
  have hrecords : ∀ (rs : List Record) (g : Gap),
      Account site (Record.itemsAll rs) (recordScript l mid column next g rs).items [] := by
    intro rs
    induction rs with
    | nil => exact fun _ => nil
    | cons r rs ih =>
      intro g
      rw [recordScript, Script.items_append]
      exact (record hl hlow hc hmid g r).append (ih _)
  exact (hrecords _ g).of_content (Record.cores_ofItems items).symm
    (by rw [Record.comments_ofItems]) (fun h => by rw [Record.ofItems_eq_nil h]; rfl)
    Record.endsOpen_ofItems

/-- The items taken onto a call line are accounted for, and the others are left. -/
theorem argumentLine (hoist : Bool) (n : Nat) (column : Int) (hc : low ≤ column)
    (items : List Item) :
    let line := Layout.argumentLine l hoist n column items
    ∃ taken, items = taken ++ line.rest ∧ Account site taken line.script.items line.leaving := by
  have hnext : low ≤ column + 1 := by omega
  fun_induction Layout.argumentLine l hoist n column items with
  | case1 => exact ⟨[], rfl, nil⟩
  | case2 => exact ⟨[], rfl, nil⟩
  | case3 n column i items hi hh ih =>
    obtain ⟨taken, htaken, h⟩ := ih hc hnext
    refine ⟨i :: taken, congrArg (i :: ·) htaken, ?_⟩
    have hi : Account site [i] [] [i.element.text] := leave (by simpa using hi)
    exact hi.append h
  | case4 n column i items hi hh => exact ⟨[], rfl, nil⟩
  | case5 n column i items hi j comments hcomment ih =>
    have hj := le_ending hlow hnext j
    obtain ⟨taken, htaken, h⟩ := ih hj (by omega)
    refine ⟨i :: taken, congrArg (i :: ·) htaken, ?_⟩
    simp only [j, comments, Item.bare_eq hcomment] at h ⊢
    exact (item hl hnext i).append h
  | case6 n column i items hi j comments text hcomment hn ih =>
    have hj := le_ending hlow hnext j
    obtain ⟨taken, htaken, h⟩ := ih hj (by omega)
    refine ⟨i :: taken, congrArg (i :: ·) htaken, ?_⟩
    exact (moved hl hnext (Bool.eq_false_iff.mpr hi) hcomment).append h
  | case7 n column i items hi comments text hcomment hn =>
    exact ⟨[i], rfl, item hl hnext i⟩

/-- The items behind a head taken in front of the clauses. -/
theorem leadingLine {margin : Int} (hm : low ≤ margin) (n : Nat) (inline : Bool) (column : Int)
    (hc : low ≤ column) (items : List Item) :
    let line := Layout.leadingLine l margin n inline column items
    ∃ taken, items = taken ++ line.rest ∧ Account site taken line.script.items line.leaving := by
  fun_induction Layout.leadingLine l margin n inline column items with
  | case1 => exact ⟨[], rfl, nil⟩
  | case2 => exact ⟨[], rfl, nil⟩
  | case3 n inline column i items hi ih =>
    obtain ⟨taken, htaken, h⟩ := ih hc
    exact ⟨i :: taken, congrArg (i :: ·) htaken, (comment hi).append h⟩
  | case4 n column i items hi j ih =>
    have hnext : low ≤ column + 1 := by omega
    obtain ⟨taken, htaken, h⟩ := ih (le_ending hlow hnext j)
    exact ⟨i :: taken, congrArg (i :: ·) htaken, (item hl hnext i).append h⟩
  | case5 n inline column i items hi hinline ih =>
    obtain ⟨taken, htaken, h⟩ := ih hc
    refine ⟨i :: taken, congrArg (i :: ·) htaken, ?_⟩
    have hboth := (settled hl hm i).append h
    simpa [Line.after] using hboth

/-- A call with clauses: the head, the items in front, and the records of the rest. -/
theorem clauses (leading : Nat) {column : Int} (hc : low ≤ column) (head : Item)
    (items : List Item) :
    let p := clausesPage l leading column head items
    Account site (head :: items) p.script.items p.leaving := by
  have hnext : low ≤ column + 1 := by omega
  have hm : low ≤ column + 2 := by omega
  obtain ⟨taken, htaken, h⟩ := leadingLine hl hlow hm leading head.comment.isNone _
    (le_ending hlow hnext (settle l (column + 1) head)) items
  have hrest := records hl hlow (.line (column + 2) false) hm (fun _ _ => hm)
    (fun r => .line (column + 2) !r.isComment) (.line (column + 2) false)
    (Layout.leadingLine l (column + 2) leading head.comment.isNone
      ((settle l (column + 1) head).ending (column + 1)) items).rest
  have hall := ((item hl hnext head).append h).append hrest
  rw [List.append_nil, List.singleton_append, List.cons_append, ← htaken] at hall
  simpa [clausesPage] using hall

end

section

variable {low : Int} (hlow : low ≤ 0)

include hlow

/-- The head and its arguments. -/
theorem headLine {lay argumentLay : Lay} (hlay : Serves site low lay)
    (hargument : Serves site low argumentLay) (style : CallStyle) {column : Int}
    (hc : low ≤ column) {head : Item} (hhead : head.isComment = false) (items : List Item) :
    let line := Layout.headLine lay argumentLay style column head items
    ∃ taken, items = taken ++ line.rest ∧
      Account site (head :: taken) line.script.items line.leaving := by
  have hnext : low ≤ column + 1 := by omega
  obtain ⟨taken, htaken, h⟩ := argumentLine hargument hlow style.hoist style.arguments _
    (le_ending hlow hnext (settle lay (column + 1) head.bare)) items
  have hitem := item hlay hnext head
  unfold Layout.headLine
  cases hcomment : head.comment with
  | none =>
    refine ⟨taken, htaken, ?_⟩
    simp only [Item.bare_eq hcomment] at h ⊢
    exact hitem.append h
  | some text =>
    by_cases hh : style.hoist = true
    · simp only [if_pos hh]
      exact ⟨taken, htaken, (moved hlay hnext hhead hcomment).append h⟩
    · simp only [if_neg hh]
      exact ⟨[], rfl, hitem⟩

/-- The first argument is not left of the bound. -/
theorem le_firstColumn {column : Int} (hc : low ≤ column) {s : Script}
    (hs : ∀ p ∈ s.head?, p.gap = .none) : low ≤ firstColumn column s := by
  unfold firstColumn
  split
  · rename_i p q s
    have hgap : p.gap = .none := hs p rfl
    have hend : low ≤ p.ending (column + 1) := by
      unfold Placed.ending
      rw [hgap]
      exact le_ending hlow (by show low ≤ column + 1; omega) p.item
    omega
  · omega

omit hlow in
/-- The head stands right behind the bracket. -/
theorem head_headLine (lay argumentLay : Lay) (style : CallStyle) (column : Int) (head : Item)
    (items : List Item) :
    ∀ p ∈ (Layout.headLine lay argumentLay style column head items).script.head?, p.gap = .none := by
  unfold Layout.headLine
  intro p hp
  repeat' split at hp
  all_goals
    simp only [Line.after, List.singleton_append, List.head?_cons, Option.mem_def,
      Option.some.injEq] at hp
    subst hp
    rfl

/-- The margin of a call is given, or it is where its first argument starts; neither is left of
    the bound. -/
theorem margin_call {lay argumentLay bodyLay : Lay} {style : CallStyle} {column : Int}
    {head : Item} {items : List Item} (hc : low ≤ column)
    (hbody : ∀ c ∈ style.bodyColumn, low ≤ c) :
    low ≤ (callPage lay argumentLay bodyLay style column head items).margin := by
  unfold callPage
  cases hb : style.bodyColumn with
  | some c => exact hbody c (by rw [hb]; rfl)
  | none => exact le_firstColumn hlow hc (head_headLine lay argumentLay style column head items)

/-- A call accounts for its items on the line and below it. -/
theorem call {lay argumentLay bodyLay : Lay} (hlay : Serves site low lay)
    (hargument : Serves site low argumentLay) (hbodyLay : Serves site low bodyLay)
    {style : CallStyle} {column : Int} (hc : low ≤ column)
    (hbody : ∀ c ∈ style.bodyColumn, low ≤ c) {head : Item} (hhead : head.isComment = false)
    (items : List Item) :
    let p := callPage lay argumentLay bodyLay style column head items
    Account site (head :: items) p.script.items p.leaving := by
  obtain ⟨taken, htaken, h⟩ := headLine hlow hlay hargument style hc hhead items
  have hmargin : low ≤ (callPage lay argumentLay bodyLay style column head items).margin :=
    margin_call hlow hc hbody
  have hrest := settledAll hbodyLay hmargin
    (Layout.headLine lay argumentLay style column head items).rest
  have hboth := h.append hrest
  rw [List.append_nil, List.cons_append, ← htaken] at hboth
  simpa [callPage] using hboth

end

end Account

/-- An indent leads to the right. -/
theorem le_indent {low column : Int} (hc : low ≤ column) {indent : Option Int}
    (h : ∀ c ∈ indent, 0 < c) : ∀ c ∈ indent.map (column + ·), low ≤ c := by
  intro c hmem
  obtain ⟨d, hd, rfl⟩ := Option.map_eq_some_iff.mp hmem
  have := h d hd
  omega

/-- **Accounts.**  Every plan accounts for its items. -/
theorem account_page {lay : Lay} {low : Int} {site : Lay → Int → Prop}
    (hlay : ∀ place : Place, Serves site low (place.lay lay)) {plan : Plan} (hplan : plan.Indents)
    (hlow : low ≤ 0) {column : Int} (hc : low ≤ column) (b : Bracket) (items : List Item) :
    Account site items (plan.page lay column b items).script.items
      (plan.page lay column b items).leaving := by
  have halign : low ≤ column + b.width := by omega
  cases plan with
  | sequence =>
    simp only [Plan.page, sequencePage, items_rows]
    exact Account.settledAll (hlay .plain) halign items
  | pairs =>
    exact Account.records (hlay .plain) hlow _ halign (fun c hc => by show low ≤ c + 1; omega) _ _
      items
  | headed form =>
    simp only [Plan.page]
    rcases hsplit : Item.splitHead items with ⟨leading, head, rest⟩
    obtain ⟨hleading, hhead, hitems, hnone⟩ := Item.splitHead_spec hsplit
    have hleave : Account site leading [] (leadingComments leading) := Account.leave hleading
    cases head with
    | none =>
      obtain rfl : items = leading := by rw [hitems, hnone rfl]; simp
      exact hleave
    | some head =>
      have hpage : Account site (head :: rest) (form.page lay column head rest).script.items
          (form.page lay column head rest).leaving := by
        cases form with
        | call argument body arguments indent hoist =>
          exact Account.call hlow (hlay .plain) (hlay argument) (hlay body) hc
            (le_indent hc hplan) (hhead head rfl) rest
        | clauses leading => exact Account.clauses (hlay .plain) hlow leading hc head rest
      rw [hitems]
      exact hleave.append hpage

/-- A document accounts for its items. -/
theorem Account.document {lay : Lay} {low : Int} {site : Lay → Int → Prop}
    (hlay : Serves site low lay) (hlow : low ≤ 0) (items : List Item) :
    Account site items (documentScript lay items).items [] := by
  rw [documentScript, items_spread]
  exact Account.settledAll hlay hlow items

/-- So does a document in the usual layout. -/
theorem account_document (table : Table) (children : List Node) :
    Account (Somewhere (layout table) 0) (Item.group children)
      (documentScript (layout table) (Item.group children)).items [] :=
  Account.document (serves_somewhere (faithful_layout table) 0 .plain) (Int.le_refl 0) _

end CljTidy.Layout
