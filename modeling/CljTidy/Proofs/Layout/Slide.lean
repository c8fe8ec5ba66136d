/-
  Layout further to the right.

  A node slides if, wherever it is laid out, it comes out moved when it is laid out `k` columns
  further to the right (`Slides`).  If the elements of items slide, then what the items settle to is
  moved, and so are the pages made of it: sequences and pairs, calls and clauses
  (`shifts_sequencePage` to `shifts_clausesPage`), and with them the page of every plan
  (`shifts_page`) and of every namespace declaration (`shifts_ledPage`).  A node with a line feed in
  its own text sticks; every form in which nothing sticks slides, by induction on the rank
  (`slides_lay`).
-/
import CljTidy.Proofs.Layout.Shaped
import CljTidy.Proofs.Layout.Shift

namespace CljTidy.Layout

variable {k : Nat}

/-! ## Settled items -/

/-- Comments on lines of their own move as they are: no line feed is inside them. -/
theorem shifts_map_ofComment {texts : List String} (h : ∀ text ∈ texts, Unbroken text) :
    List.Forall₂ (Item.Shifts k) (texts.map .ofComment) (texts.map .ofComment) := by
  induction texts with
  | nil => exact .nil
  | cons text texts ih =>
    obtain ⟨htext, htexts⟩ := List.forall_mem_cons.mp h
    exact .cons (Item.shifts_ofComment htext) (ih htexts)

/-- Wherever the node is laid out, `k` columns further to the right it comes out moved. -/
def Slides (lay : Lay) (k : Nat) (n : Node) : Prop :=
  ∀ column : Int, 0 ≤ column → (lay column n).Shifts k (lay (column + k) n)

/-- Behind a marker it comes out moved as well. -/
theorem Slides.marked {lay : Lay} {n : Node} (h : Slides lay k n) (marker : Option String)
    {column : Int} (hc : 0 ≤ column) :
    (lay (column + Draft.markerWidth marker) n).Shifts k
      (lay (column + k + Draft.markerWidth marker) n) := by
  have hmoved := h (column + Draft.markerWidth marker) (Int.add_nonneg hc (markerWidth_nonneg _))
  rwa [Int.add_right_comm] at hmoved

section

variable {lay : Lay} {i : Item} (h : i.Made (Slides lay k) Unbroken)

include h

variable {column : Int} (hc : 0 ≤ column)

include hc

/-- A settled item moves with its element; its marker and its own comment stay on their lines. -/
theorem shifts_settle : (settle lay column i).Shifts k (settle lay (column + k) i) := by
  cases h with
  | comment comment => exact Item.shifts_ofComment comment
  | @element node marker comment form made marked trailing =>
    have hnot : (Item.mk node marker comment).isComment = false := (Node.isForm_iff.mp form).2
    have hmoved := made.marked marker hc
    have htidy : ∀ text ∈ comment.map Comment.tidy, Unbroken text := by
      intro text htext
      obtain ⟨own, hown, rfl⟩ := Option.map_eq_some_iff.mp htext
      exact Comment.unbroken_tidy (trailing own hown)
    -- The text is that of the element between two unbroken ones.
    obtain ⟨front, behind, hfront, hbehind, hwritten⟩ := Item.text_written marked htidy
    simp only [settle, hnot, Bool.false_eq_true, if_false]
    refine ⟨?_, ?_⟩
    · rw [hwritten, hwritten]
      exact ((Shifted.of_unbroken hfront).append hmoved.text).append (.of_unbroken hbehind)
    · simp only [Item.closesLine, Item.isComment, hmoved.isComment]

/-- The same comments leave it, -/
theorem leaving_shift : leaving lay (column + k) i = leaving lay column i := by
  cases h with
  | comment comment => rfl
  | @element node marker comment form made marked trailing =>
    simp only [leaving, (made.marked marker hc).hoisted]

/-- and none of them has a line feed. -/
theorem unbroken_leaving : ∀ text ∈ leaving lay column i, Unbroken text := by
  cases h with
  | comment comment => rintro text ⟨⟩
  | @element node marker comment form made marked trailing =>
    intro text htext
    unfold leaving at htext
    split at htext
    · cases htext
    · exact (made.marked marker hc).unbroken text htext

/-- So the item moves together with these comments in front. -/
theorem shifts_settled :
    List.Forall₂ (Item.Shifts k) (settled lay column i) (settled lay (column + k) i) := by
  rw [settled, settled, leaving_shift h hc]
  exact List.rel_append (shifts_map_ofComment (unbroken_leaving h hc))
    (.cons (shifts_settle h hc) .nil)

end

/-! ## Sequences and pairs -/

section

variable {lay : Lay}

/-- Items in a row move one by one. -/
theorem slides_settledAll {items : List Item} (h : ∀ i ∈ items, i.Made (Slides lay k) Unbroken)
    {column : Int} (hc : 0 ≤ column) :
    List.Forall₂ (Item.Shifts k) (items.flatMap (settled lay column))
      (items.flatMap (settled lay (column + k))) := by
  induction items with
  | nil => exact .nil
  | cons i items ih =>
    obtain ⟨hi, hitems⟩ := List.forall_mem_cons.mp h
    exact List.rel_append (shifts_settled hi hc) (ih hitems)

/-- A row for each item: the rows start further to the right, and so do their items. -/
theorem shifts_sequencePage {items : List Item} (h : ∀ i ∈ items, i.Made (Slides lay k) Unbroken)
    {column : Int} (hc : 0 < column) :
    (sequencePage lay column items).Shifts k (sequencePage lay (column + k) items) :=
  ⟨shifts_rows hc .none (slides_settledAll h (Int.le_of_lt hc)), rfl, by rintro text ⟨⟩,
    .inr (.line false hc)⟩

/-- A record moves as a whole: the value starts behind the key, which has moved. -/
theorem shifts_recordRows {r : Record} (h : ∀ i ∈ r.items, i.Made (Slides lay k) Unbroken)
    {mid mid' : Gap} (hmid : mid.Shifts k mid') {column : Int} (hc : 0 < column) {g g' : Gap}
    (hg : g.Shifts k g') :
    (recordRows lay mid column g r).Shifts k (recordRows lay mid' (column + k) g' r) := by
  have hstart : 0 ≤ column := Int.le_of_lt hc
  cases r with
  | comment text =>
    cases h _ (List.mem_singleton.mpr rfl) with
    | comment comment => exact .one ⟨hg, Item.shifts_ofComment comment⟩
    | element form => cases form
  | orphan i => exact shifts_rows hc hg (shifts_settled (h i (List.mem_singleton.mpr rfl)) hstart)
  | pair key value =>
    have hkey := h key (by simp [Record.items])
    have hvalue := h value (by simp [Record.items])
    have hk := shifts_settle hkey hstart
    have hbehind : 0 ≤ mid.column ((settle lay column key).ending column) :=
      hmid.nonneg (le_ending (Int.le_refl 0) hstart _)
    have hout : ∀ text ∈ leaving lay column key ++
        leaving lay (mid.column ((settle lay column key).ending column)) value, Unbroken text :=
      List.forall_mem_append.mpr ⟨unbroken_leaving hkey hstart, unbroken_leaving hvalue hbehind⟩
    simp only [recordRows, hk.ending, hmid.column, leaving_shift hkey hstart,
      leaving_shift hvalue hbehind]
    refine .append (shifts_rows hc hg (List.rel_append ?_ (.cons hk .nil)))
      (.one ⟨hmid, shifts_settle hvalue hbehind⟩)
    exact shifts_map_ofComment hout

/-- Records in a row, with gaps that move along. -/
theorem shifts_recordScript {records : List Record}
    (h : ∀ i ∈ Record.itemsAll records, i.Made (Slides lay k) Unbroken) {mid mid' : Gap}
    (hmid : mid.Shifts k mid') {column : Int} (hc : 0 < column) {next next' : Record → Gap}
    (hnext : ∀ r, (next r).Shifts k (next' r)) {g g' : Gap} (hg : g.Shifts k g') :
    (recordScript lay mid column next g records).Shifts k
      (recordScript lay mid' (column + k) next' g' records) := by
  induction records generalizing g g' with
  | nil => exact .nil
  | cons r records ih =>
    rw [Record.itemsAll_cons] at h
    obtain ⟨hr, hrest⟩ := List.forall_mem_append.mp h
    exact (shifts_recordRows hr hmid hc hg).append (ih hrest (hnext r))

/-- Pairing makes records of the items themselves and of their comments. -/
theorem slides_ofItems {items : List Item} (h : ∀ i ∈ items, i.Made (Slides lay k) Unbroken) :
    ∀ i ∈ Record.itemsAll (Record.ofItems items), i.Made (Slides lay k) Unbroken :=
  Record.forall_ofItems (fun _ _ hi => hi.bare)
    (fun _ hi text htext => .comment (hi.texts text htext)) h

/-- A row for each pair. -/
theorem shifts_pairsPage {items : List Item} (h : ∀ i ∈ items, i.Made (Slides lay k) Unbroken)
    {column : Int} (hc : 0 < column) :
    (pairsPage lay column items).Shifts k (pairsPage lay (column + k) items) :=
  ⟨shifts_recordScript (slides_ofItems h) .space hc (fun _ => .line false hc) .none, rfl,
    by rintro text ⟨⟩, .inr (.line false hc)⟩

end

/-! ## Lines -/

/-- A line, moved: what is still to be written is the same. -/
structure Line.Shifts (k : Nat) (l m : Line) : Prop where
  script : l.script.Shifts k m.script
  leaving : m.leaving = l.leaving
  unbroken : ∀ text ∈ l.leaving, Unbroken text
  rest : m.rest = l.rest

/-- More on the line in front. -/
theorem Line.Shifts.after {l m : Line} (h : l.Shifts k m) {s t : Script} (hs : s.Shifts k t)
    {comments : List String} (hout : ∀ text ∈ comments, Unbroken text) :
    (l.after s comments).Shifts k (m.after t comments) :=
  ⟨hs.append h.script, congrArg (comments ++ ·) h.leaving,
    List.forall_mem_append.mpr ⟨hout, h.unbroken⟩, h.rest⟩

/-- Nothing more goes onto the line. -/
theorem Line.shifts_end (items : List Item) : Line.Shifts k ⟨[], [], items⟩ ⟨[], [], items⟩ :=
  ⟨.nil, rfl, by rintro text ⟨⟩, rfl⟩

section

variable {lay : Lay}

/-- The arguments on the line of a call.  Where the line ends is told by the items alone; the
    column only moves along, one space behind every argument. -/
theorem shifts_argumentLine (hoist : Bool) (n : Nat) (column : Int) (hc : 0 ≤ column)
    {items : List Item} (h : ∀ i ∈ items, i.Made (Slides lay k) Unbroken) :
    (argumentLine lay hoist n column items).Shifts k
      (argumentLine lay hoist n (column + k) items) := by
  have hnext : 0 ≤ column + 1 := by omega
  have hmoved : column + k + 1 = column + 1 + k := Int.add_right_comm ..
  fun_induction argumentLine lay hoist n column items with
  | case1 column items =>
    rw [argumentLine]
    exact Line.shifts_end items
  | case2 n column =>
    rw [argumentLine]
    · exact Line.shifts_end []
    · assumption
  | case3 n column i items hi hh ih =>
    subst hh
    obtain ⟨hown, hrest⟩ := List.forall_mem_cons.mp h
    rw [argumentLine, if_pos hi, if_pos rfl]
    refine (ih hc hrest hnext hmoved).after .nil ?_
    simpa [Item.commentTexts, hi] using hown.texts
  | case4 n column i items hi hh =>
    rw [argumentLine, if_pos hi, if_neg hh]
    exact Line.shifts_end _
  | case5 n column i items hi j comments hcomment ih =>
    obtain ⟨hown, hrest⟩ := List.forall_mem_cons.mp h
    have hbare := hown.bare
    have hj := shifts_settle hbare hnext
    have hend : 0 ≤ j.ending (column + 1) := le_ending (Int.le_refl 0) hnext j
    rw [argumentLine, if_neg hi]
    simp only [hcomment, hmoved, hj.ending, leaving_shift hbare hnext]
    exact (ih hend hrest (by omega) (Int.add_right_comm ..)).after (.one ⟨.space, hj⟩)
      (unbroken_leaving hbare hnext)
  | case6 n column i items hi j comments text hcomment hn ih =>
    obtain ⟨hown, hrest⟩ := List.forall_mem_cons.mp h
    have hbare := hown.bare
    have hj := shifts_settle hbare hnext
    have hend : 0 ≤ j.ending (column + 1) := le_ending (Int.le_refl 0) hnext j
    rw [argumentLine, if_neg hi]
    simp only [hcomment, if_pos hn, hmoved, hj.ending, leaving_shift hbare hnext]
    refine (ih hend hrest (by omega) (Int.add_right_comm ..)).after (.one ⟨.space, hj⟩)
      (List.forall_mem_append.mpr ⟨unbroken_leaving hbare hnext, ?_⟩)
    simpa [Item.commentTexts, hi, hcomment] using hown.texts
  -- The last argument keeps its comment, which ends the line.
  | case7 n column i items hi comments text hcomment hn =>
    obtain ⟨hown, hrest⟩ := List.forall_mem_cons.mp h
    have hbare := hown.bare
    rw [argumentLine, if_neg hi]
    simp only [hcomment, if_neg hn, hmoved, leaving_shift hbare hnext]
    exact ⟨.one ⟨.space, shifts_settle hown hnext⟩, rfl, unbroken_leaving hbare hnext, rfl⟩

/-- The items in front of clauses, on the line or on rows at the margin. -/
theorem shifts_leadingLine {margin : Int} (hm : 0 < margin) (n : Nat) (inline : Bool)
    (column : Int) (hc : 0 ≤ column) {items : List Item}
    (h : ∀ i ∈ items, i.Made (Slides lay k) Unbroken) :
    (leadingLine lay margin n inline column items).Shifts k
      (leadingLine lay (margin + k) n inline (column + k) items) := by
  fun_induction leadingLine lay margin n inline column items with
  | case1 inline column items =>
    rw [leadingLine]
    exact Line.shifts_end items
  | case2 n inline column =>
    rw [leadingLine]
    · exact Line.shifts_end []
    · assumption
  | case3 n inline column i items hi ih =>
    obtain ⟨hown, hrest⟩ := List.forall_mem_cons.mp h
    have htext : Unbroken i.element.text := by
      simpa [Item.commentTexts, hi] using hown.texts
    rw [leadingLine, if_pos hi]
    exact (ih hc hrest).after (.one ⟨.line false hm, Item.shifts_ofComment htext⟩)
      (by rintro text ⟨⟩)
  | case4 n column i items hi j ih =>
    obtain ⟨hown, hrest⟩ := List.forall_mem_cons.mp h
    have hnext : 0 ≤ column + 1 := by omega
    have hmoved : column + k + 1 = column + 1 + k := Int.add_right_comm ..
    have hj := shifts_settle hown hnext
    rw [leadingLine, if_neg hi, if_pos rfl]
    simp only [hmoved, hj.ending, leaving_shift hown hnext]
    exact (ih (le_ending (Int.le_refl 0) hnext j) hrest).after (.one ⟨.space, hj⟩)
      (unbroken_leaving hown hnext)
  -- Off the line the item has a row at the margin, which moves like the column.
  | case5 n inline column i items hi hinline ih =>
    obtain ⟨hown, hrest⟩ := List.forall_mem_cons.mp h
    rw [leadingLine, if_neg hi, if_neg hinline]
    exact (ih hc hrest).after
      (shifts_rows hm (.line false hm) (shifts_settled hown (Int.le_of_lt hm)))
      (by rintro text ⟨⟩)

end

/-! ## Calls and clauses -/

/-- A style whose body goes `k` columns further to the right. -/
structure CallStyle.Shifts (k : Nat) (style style' : CallStyle) : Prop where
  arguments : style'.arguments = style.arguments
  hoist : style'.hoist = style.hoist
  bodyColumn : style'.bodyColumn = style.bodyColumn.map (· + (k : Int))
  inside : ∀ c ∈ style.bodyColumn, 0 < c

/-- The first argument moves along. -/
theorem Script.Shifts.firstColumn {s t : Script} (h : s.Shifts k t) (column : Int) :
    firstColumn (column + k) t = firstColumn column s + k := by
  have hmoved : column + k + 1 = column + 1 + k := Int.add_right_comm ..
  cases h with
  | nil => exact hmoved
  | @cons p q s t hp hs =>
    cases hs with
    | nil => exact hmoved
    | cons =>
      have hend : q.ending (column + 1 + k) = p.ending (column + 1) + k := by
        rw [Placed.ending, Placed.ending, hp.gap.column, hp.item.ending]
      simp only [Layout.firstColumn, hmoved, hend]
      omega

/-- The first argument is to the right of the bracket. -/
theorem Script.Shifts.firstColumn_pos {s t : Script} (h : s.Shifts k t) {column : Int}
    (hc : 0 ≤ column) : 0 < Layout.firstColumn column s := by
  have hnext : 0 < column + 1 := by omega
  cases h with
  | nil => exact hnext
  | @cons p q s t hp hs =>
    cases hs with
    | nil => exact hnext
    | cons =>
      have hend : 0 ≤ p.ending (column + 1) :=
        le_ending (Int.le_refl 0) (hp.gap.nonneg (Int.le_of_lt hnext)) p.item
      simp only [Layout.firstColumn]
      omega

section

variable {lay : Lay} {head : Item} (hhead : head.Made (Slides lay k) Unbroken) {column : Int}
  (hc : 0 ≤ column)

include hhead hc

/-- The line of a call starts with the head, one column behind the bracket. -/
theorem shifts_headLine {argumentLay : Lay} {items : List Item}
    (h : ∀ i ∈ items, i.Made (Slides argumentLay k) Unbroken) (hnot : head.isComment = false)
    {style style' : CallStyle} (hstyle : style.Shifts k style') :
    (headLine lay argumentLay style column head items).Shifts k
      (headLine lay argumentLay style' (column + k) head items) := by
  have hnext : 0 ≤ column + 1 := by omega
  have hmoved : column + k + 1 = column + 1 + k := Int.add_right_comm ..
  have hbare := hhead.bare
  have hj := shifts_settle hbare hnext
  have hline := shifts_argumentLine style.hoist style.arguments _
    (le_ending (Int.le_refl 0) hnext (settle lay (column + 1) head.bare)) h
  have hout := unbroken_leaving hbare hnext
  unfold headLine
  simp only [hstyle.arguments, hstyle.hoist, hmoved, hj.ending, leaving_shift hbare hnext]
  cases hcomment : head.comment with
  | none => exact hline.after (.one ⟨.none, hj⟩) hout
  | some text =>
    have htext : Unbroken text := by
      simpa [Item.commentTexts, hnot, hcomment] using hhead.texts
    by_cases hh : style.hoist = true
    · simp only [if_pos hh]
      exact hline.after (.one ⟨.none, hj⟩)
        (List.forall_mem_append.mpr ⟨hout, by simpa using htext⟩)
    · simp only [if_neg hh]
      exact ⟨.one ⟨.none, shifts_settle hhead hnext⟩, rfl, hout, rfl⟩

/-- A call is its line, and a row for each item that is left. -/
theorem shifts_callPage {argumentLay bodyLay : Lay} {items : List Item}
    (hargument : ∀ i ∈ items, i.Made (Slides argumentLay k) Unbroken)
    (hbody : ∀ i ∈ items, i.Made (Slides bodyLay k) Unbroken) (hnot : head.isComment = false)
    {style style' : CallStyle} (hstyle : style.Shifts k style') :
    (callPage lay argumentLay bodyLay style column head items).Shifts k
      (callPage lay argumentLay bodyLay style' (column + k) head items) := by
  have hline := shifts_headLine hhead hc hargument hnot hstyle
  have hrest : ∀ i ∈ (headLine lay argumentLay style column head items).rest,
      i.Made (Slides bodyLay k) Unbroken :=
    fun i hi => hbody i (headLine_rest_subset lay argumentLay style column head items i hi)
  -- The margin is given, or it is where the first argument starts; it moves along either way.
  have hmargin : ∃ margin : Int, 0 < margin ∧
      style.bodyColumn.getD
        (firstColumn column (headLine lay argumentLay style column head items).script) = margin ∧
      style'.bodyColumn.getD (firstColumn (column + k)
        (headLine lay argumentLay style' (column + k) head items).script) = margin + k := by
    rw [hstyle.bodyColumn, hline.script.firstColumn]
    cases hbodyColumn : style.bodyColumn with
    | none => exact ⟨_, hline.script.firstColumn_pos hc, rfl, rfl⟩
    | some c => exact ⟨c, hstyle.inside c hbodyColumn, rfl, rfl⟩
  obtain ⟨margin, hpos, hm, hm'⟩ := hmargin
  simp only [callPage, hm, hm', hline.rest, hline.leaving]
  exact ⟨hline.script.append (shifts_rows hpos (.line false hpos)
    (slides_settledAll hrest (Int.le_of_lt hpos))), rfl, hline.unbroken, .inr (.line false hpos)⟩

/-- A call with clauses: the head, the items in front and the records of the rest, at a margin two
    columns behind the bracket. -/
theorem shifts_clausesPage {items : List Item} (h : ∀ i ∈ items, i.Made (Slides lay k) Unbroken)
    (leading : Nat) :
    (clausesPage lay leading column head items).Shifts k
      (clausesPage lay leading (column + k) head items) := by
  have hnext : 0 ≤ column + 1 := by omega
  have hm : 0 < column + 2 := by omega
  have hmoved : column + k + 1 = column + 1 + k := Int.add_right_comm ..
  have hmargin : column + k + 2 = column + 2 + k := Int.add_right_comm ..
  have hj := shifts_settle hhead hnext
  have hline := shifts_leadingLine hm leading head.comment.isNone _
    (le_ending (Int.le_refl 0) hnext (settle lay (column + 1) head)) h
  have hrest : ∀ i ∈ (leadingLine lay (column + 2) leading head.comment.isNone
      ((settle lay (column + 1) head).ending (column + 1)) items).rest,
      i.Made (Slides lay k) Unbroken :=
    fun i hi => h i (leadingLine_rest_subset _ _ _ _ _ _ i hi)
  have hrecords := shifts_recordScript (slides_ofItems hrest) (.line false hm) hm
    (fun r => .line (!r.isComment) hm) (.line false hm)
  simp only [clausesPage, hmoved, hmargin, hj.ending, leaving_shift hhead hnext, hline.rest,
    hline.leaving]
  exact ⟨.append (.append (.one ⟨.none, hj⟩) hline.script) hrecords, rfl,
    List.forall_mem_append.mpr ⟨unbroken_leaving hhead hnext, hline.unbroken⟩,
    .inr (.line false hm)⟩

end

/-! ## Plans -/

/-- Comments in front of a head leave it as they are. -/
theorem unbroken_leadingComments {P : Node → Prop} {leading : List Item}
    (hcomment : ∀ i ∈ leading, i.isComment = true) (h : ∀ i ∈ leading, i.Made P Unbroken) :
    ∀ text ∈ leadingComments leading, Unbroken text := by
  intro text htext
  obtain ⟨i, hi, rfl⟩ := List.mem_map.mp htext
  exact (h i hi).texts _ (by simp [Item.commentTexts, hcomment i hi])

/-- Comments that leave in front of a page move with it. -/
theorem Page.Shifts.led {p q : Page} (h : p.Shifts k q) {comments : List String}
    (hout : ∀ text ∈ comments, Unbroken text) :
    Page.Shifts k { p with leaving := comments ++ p.leaving }
      { q with leaving := comments ++ q.leaving } :=
  ⟨h.script, congrArg (comments ++ ·) h.leaving, List.forall_mem_append.mpr ⟨hout, h.unbroken⟩,
    h.margin⟩

section

variable {lay : Lay} {column : Int} (hc : 0 ≤ column)

include hc

/-- A form moves if its own margin is to the right of the bracket. -/
theorem shifts_form {head : Item} (hnot : head.isComment = false) {items : List Item}
    (h : ∀ i ∈ head :: items, ∀ place : Place, i.Made (Slides (place.lay lay) k) Unbroken)
    {form : Form} (hform : form.Indents) :
    (form.page lay column head items).Shifts k (form.page lay (column + k) head items) := by
  obtain ⟨hhead, hitems⟩ := List.forall_mem_cons.mp h
  cases form with
  | call argument body arguments indent hoist =>
    refine shifts_callPage (hhead .plain) hc (fun i hi => hitems i hi argument)
      (fun i hi => hitems i hi body) hnot ⟨rfl, rfl, ?_, ?_⟩
    · cases indent with
      | none => rfl
      | some d => exact congrArg some (Int.add_right_comm ..)
    · intro c hmem
      obtain ⟨d, hd, rfl⟩ := Option.map_eq_some_iff.mp hmem
      have hright := hform d hd
      omega
  | clauses leading =>
    exact shifts_clausesPage (hhead .plain) hc (fun i hi => hitems i hi .plain) leading

/-- **Pages move along.**  If the elements come out moved, the page of a plan does. -/
theorem shifts_page {items : List Item}
    (h : ∀ i ∈ items, ∀ place : Place, i.Made (Slides (place.lay lay) k) Unbroken) {plan : Plan}
    (hplan : plan.Indents) {b : Bracket} (hb : b.isCollection = true) :
    (plan.page lay column b items).Shifts k (plan.page lay (column + k) b items) := by
  have hwidth : 0 < (b.width : Int) := by cases b <;> first | decide | cases hb
  have halign : 0 < column + b.width := by omega
  have hmoved : column + k + b.width = column + b.width + k := Int.add_right_comm ..
  cases plan with
  | sequence =>
    simp only [Plan.page, hmoved]
    exact shifts_sequencePage (fun i hi => h i hi .plain) halign
  | pairs =>
    simp only [Plan.page, hmoved]
    exact shifts_pairsPage (fun i hi => h i hi .plain) halign
  | headed form =>
    simp only [Plan.page]
    rcases hsplit : Item.splitHead items with ⟨leading, _ | head, rest⟩
    all_goals
      obtain ⟨hleading, hhead, rfl, -⟩ := Item.splitHead_spec hsplit
      have hout := unbroken_leadingComments hleading fun i hi =>
        h i (List.mem_append_left _ hi) .plain
    · exact ⟨.nil, rfl, hout, .inl rfl⟩
    · exact (shifts_form hc (hhead head rfl) (fun i hi => h i (List.mem_append_right _ hi))
        hplan).led hout

end

/-! ## Declarations -/

/-- A declaration is a call with comments in front, whichever way its clauses are laid out. -/
theorem shifts_ledPage {lay argumentLay bodyLay : Lay} {leading items : List Item} {head : Item}
    (hleading : ∀ i ∈ leading, i.isComment = true) (hnot : head.isComment = false)
    (hlay : ∀ i ∈ leading ++ head :: items, i.Made (Slides lay k) Unbroken)
    (hargument : ∀ i ∈ items, i.Made (Slides argumentLay k) Unbroken)
    (hbody : ∀ i ∈ items, i.Made (Slides bodyLay k) Unbroken) {style style' : CallStyle}
    (hstyle : style.Shifts k style') {column : Int} (hc : 0 ≤ column) :
    (ledPage lay argumentLay bodyLay style column leading head items).Shifts k
      (ledPage lay argumentLay bodyLay style' (column + k) leading head items) := by
  obtain ⟨hout, hbehind⟩ := List.forall_mem_append.mp hlay
  exact (shifts_callPage (List.forall_mem_cons.mp hbehind).1 hc hargument hbody hnot hstyle).led
    (unbroken_leadingComments hleading hout)

/-! ## Single lines -/

/-- The node need not move along: it is misshapen, or it has a line feed in its own text. -/
def sticks (n : Node) : Bool := n.misshapen || n.breaksLine

/-- Nothing that sticks is made by grouping or by canonical order: the names they take apart have
    no line feed if the whole has none. -/
theorem foreign_sticks : Foreign sticks where
  branch _ hb := by simp [sticks, Node.misshapen, Node.breaksLine, hb]
  discard _ := by simp [sticks, Node.misshapen, Node.breaksLine]
  space := rfl
  newline := rfl
  marker := by decide
  part hpart h := by
    simp only [sticks, Node.misshapen, Node.breaksLine, Bool.false_or, List.contains_eq_mem,
      decide_eq_false_iff_not] at h ⊢
    exact fun hmem => h (hpart hmem)

/-- A leaf that does not stick is unbroken, unless it is white space. -/
theorem unbroken_leaf {kind : LeafKind} {text : String}
    (hnoise : (Node.leaf kind text).isNoise = false) (h : sticks (.leaf kind text) = false) :
    Unbroken text := by
  cases kind with
  | atom => simpa [Unbroken, sticks, Node.misshapen, Node.breaksLine] using h
  | comment => simpa [Unbroken, sticks, Node.misshapen, Node.breaksLine] using h
  | _ => cases hnoise

/-- So is the spelling of a mark; only a tag or a namespace could have a line feed. -/
theorem unbroken_spelling {m : Mark} {n : Node} (h : sticks (.wrap m n) = false) :
    Unbroken m.spelling := by
  have hlabel := (Bool.or_eq_false_iff.mp h).2
  cases m with
  | conditional splicing => cases splicing <;> simp [Unbroken, Mark.spelling]
  | tagged tag =>
    have htag : '\n' ∉ tag.toList := by simpa [Node.breaksLine] using hlabel
    simp [Unbroken, Mark.spelling, htag]
  | namespaced ns =>
    have hns : '\n' ∉ ns.toList := by simpa [Node.breaksLine] using hlabel
    simp [Unbroken, Mark.spelling, hns]
  | _ => simp [Unbroken, Mark.spelling]

/-- A form in which nothing sticks. -/
structure Loose (n : Node) : Prop where
  lacks : n.lacks sticks = true
  form : n.isForm = true

namespace Loose

/-- The parts of a loose form are loose. -/
theorem branch {b : Bracket} {cs : List Node} (h : Loose (.branch b cs)) :
    b.isCollection = true ∧ ∀ c ∈ cs, c.lacks sticks = true := by
  obtain ⟨hkind, hcs⟩ := Node.lacks_branch.mp h.lacks
  exact ⟨by simpa [sticks, Node.misshapen, Node.breaksLine] using hkind, hcs⟩

theorem wrap {m : Mark} {n : Node} (h : Loose (.wrap m n)) : Unbroken m.spelling ∧ Loose n := by
  obtain ⟨hkind, hn⟩ := Node.lacks_wrap.mp h.lacks
  have hshape := (Bool.or_eq_false_iff.mp hkind).1
  exact ⟨unbroken_spelling hkind, hn, by simpa [Node.misshapen] using hshape⟩

theorem annotated {m t : Node} (h : Loose (.annotated m t)) : Loose m ∧ Loose t := by
  obtain ⟨hkind, hm, ht⟩ := Node.lacks_annotated.mp h.lacks
  have hforms : m.isForm = true ∧ t.isForm = true := by
    simpa [sticks, Node.misshapen, Node.breaksLine] using hkind
  exact ⟨⟨hm, hforms.1⟩, ht, hforms.2⟩

end Loose

/-- Unbroken items on one line, one space between them. -/
theorem unbroken_inline {items : List Item}
    (h : ∀ i ∈ items, Unbroken (Node.textAll i.inlineNodes)) :
    Unbroken (Node.textAll (Item.inline items)) := by
  fun_induction Item.inline items with
  | case1 => simp [Unbroken, Node.textAll]
  | case2 i => exact h i (List.mem_singleton.mpr rfl)
  | case3 i items _ ih =>
    obtain ⟨hi, hrest⟩ := List.forall_mem_cons.mp h
    have hspace : Unbroken " " := by simp [Unbroken]
    rw [Node.textAll_append, Node.textAll]
    exact hi.append (hspace.append (ih hrest))

/-- **Single lines** are unbroken. -/
theorem unbroken_flatten (n : Node) (h : Loose n) : Unbroken n.flatten.text := by
  revert h
  refine item_induction (P := fun n => Loose n → Unbroken n.flatten.text) ?_ ?_ ?_ ?_ ?_ n
  · intro kind text h
    have hkind : sticks (.leaf kind text) = false := Node.lacks_leaf.mp h.lacks
    exact unbroken_leaf (Node.isForm_iff.mp h.form).1 hkind
  -- A collection on one line is its items on one line between the brackets.
  · intro b cs ih h
    obtain ⟨hb, hcs⟩ := h.branch
    rw [flatten_branch hb, Node.text]
    refine ((unbroken_opening b).append (unbroken_inline fun j hj => ?_)).append
      (unbroken_closing b)
    obtain ⟨i, hi, rfl⟩ := List.mem_map.mp hj
    have hi' := ih i hi
    cases foreign_sticks.made_group hcs i hi with
    | comment comment =>
      have htext := unbroken_leaf rfl comment
      simpa [Item.inlineNodes, Item.onto, Node.textAll, Node.flatten, Node.text] using htext
    | element form made marked =>
      have helement := hi' ⟨made, form⟩
      rcases marked with rfl | rfl
      · simpa [Item.inlineNodes, Item.onto, Node.textAll] using helement
      · simpa [Unbroken, Item.inlineNodes, Item.onto, Node.textAll, Node.text] using helement
  · intro m n ih h
    obtain ⟨hspelling, hn⟩ := h.wrap
    exact hspelling.append (ih hn)
  · intro m t ihm iht h
    obtain ⟨hm, ht⟩ := h.annotated
    have hcaret : Unbroken "^" := by simp [Unbroken]
    have hspace : Unbroken " " := by simp [Unbroken]
    exact ((hcaret.append (ihm hm)).append hspace).append (iht ht)
  · intro h
    cases h.lacks

/-! ## Nodes -/

/-- Every loose form of at most the given rank comes out moved. -/
def SlidesBelow (lay : Lay) (k r : Nat) : Prop :=
  ∀ n : Node, rank n ≤ r → Loose n → Slides lay k n

section

variable {lay : Lay} {r : Nat} (hlay : SlidesBelow lay k r)

include hlay

/-- Grouped items slide if their elements are not too deep. -/
theorem SlidesBelow.items {items : List Item} (hrank : ∀ i ∈ items, rank i.element ≤ r)
    (hmade : ∀ i ∈ items,
      i.Made (fun n => n.lacks sticks = true) fun text => sticks (.comment text) = false) :
    ∀ i ∈ items, i.Made (Slides lay k) Unbroken :=
  fun i hi => (hmade i hi).imp (fun form made => hlay _ (hrank i hi) ⟨made, form⟩)
    fun _ => unbroken_leaf rfl

/-- What goes onto a single line moves along, for it has no line feed; everything else is laid out
    as before. -/
theorem SlidesBelow.flat : SlidesBelow (flat lay) k r := by
  intro n hn hloose column hc
  unfold Layout.flat
  split
  · exact hlay n hn hloose column hc
  · exact ⟨.of_unbroken (unbroken_flatten n hloose), rfl, by rintro text ⟨⟩, rfl⟩

/-- Clauses come out moved if everything else does. -/
theorem SlidesBelow.nsClause : SlidesBelow (nsClause lay) k r := by
  intro n hn hloose column hc
  rcases nsClause_cases lay n with h | h | ⟨cs, leading, head, entries, rfl, hsplit, hshows⟩
  · rw [h, h]
    exact hlay n hn hloose column hc
  · rw [h, h]
    exact hlay.flat n hn hloose column hc
  · obtain ⟨hleading, hhead, hitems, -⟩ := Item.splitHead_spec hsplit
    have hrank : ∀ i ∈ Item.group cs, rank i.element ≤ r := by
      intro i hi
      have hdeep := rank_element hi
      rw [rank] at hn
      omega
    have hmade := foreign_sticks.made_group hloose.branch.2
    have hall := hlay.items hrank hmade
    have hflat := hlay.flat.items hrank hmade
    rw [hitems] at hall hflat
    have hentries : ∀ i ∈ entries, i.Made (Slides (Layout.flat lay) k) Unbroken :=
      fun i hi => hflat i (by simp [hi])
    exact (hshows column).shifts (hshows (column + k)) (shifts_ledPage hleading (hhead head rfl)
      hall hentries hentries ⟨rfl, rfl, rfl, by rintro c ⟨⟩⟩ hc)

end

/-- **Collections move along** if everything of smaller rank does. -/
theorem slides_collection {table : Table} {b : Bracket} (hb : b.isCollection = true)
    {cs : List Node} (hcs : ∀ c ∈ cs, c.lacks sticks = true)
    (hlay : ∀ place : Place, SlidesBelow (place.lay (layout table)) k (rankAll cs))
    (place : Place) : Slides (place.lay (layout table)) k (.branch b cs) := by
  intro column hc
  have hgroup := foreign_sticks.made_group hcs
  cases hplan : place.plan? table b (Item.group cs) with
  | some plan =>
    have hitems : ∀ i ∈ Item.group cs, ∀ place : Place,
        i.Made (Slides (place.lay (layout table)) k) Unbroken :=
      fun i hi place => (hlay place).items (fun _ hi => rank_element hi) hgroup i hi
    exact (shows_layout hb hplan column).shifts (shows_layout hb hplan (column + k))
      (shifts_page hc hitems (indents_plan hplan) hb)
  | none =>
    -- What has no plan is a declaration.
    obtain ⟨rfl, hform, hlist⟩ := lay_of_no_plan hplan
    obtain ⟨leading, head, rest, hsplit, hrule⟩ := ns_of_no_form hform
    obtain ⟨hleading, hhead, -, -⟩ := Item.splitHead_spec hsplit
    have harranged : Arranged (leading ++ head :: Namespace.normalizeDeclarations rest) cs :=
      .inr ⟨leading, head, rest, hsplit, rfl⟩
    have hmade := harranged.made foreign_sticks hcs
    have hall := (hlay .plain).items (fun _ hi => harranged.rank_le hi) hmade
    have hclauses := (hlay .plain).nsClause.items (fun _ hi => harranged.rank_le hi) hmade
    have hstyle : CallStyle.Shifts k { arguments := 1, bodyColumn := some (column + 2) }
        { arguments := 1, bodyColumn := some (column + k + 2) } := by
      refine ⟨rfl, rfl, congrArg some (Int.add_right_comm ..), ?_⟩
      rintro c ⟨⟩
      omega
    rw [hlist, hlist]
    exact (shows_ns hsplit hrule column).shifts (shows_ns hsplit hrule (column + k))
      (shifts_ledPage hleading (hhead head rfl) hall
        (fun i hi => hall i (by simp [hi])) (fun i hi => hclauses i (by simp [hi])) hstyle hc)

/-- **Forms move along.** -/
theorem slides_lay (table : Table) (n : Node) :
    Loose n → ∀ place : Place, Slides (place.lay (layout table)) k n := by
  refine rank_induction
    (P := fun n => Loose n → ∀ place : Place, Slides (place.lay (layout table)) k n)
    ?_ ?_ ?_ ?_ ?_ n
  · intro kind text h place column _
    have htext := unbroken_leaf (Node.isForm_iff.mp h.form).1 (Node.lacks_leaf.mp h.lacks)
    cases kind with
    | atom =>
      rw [lay_leaf, lay_leaf]
      exact ⟨.of_unbroken htext, rfl, by rintro text ⟨⟩, rfl⟩
    | _ => cases h.form
  · intro b cs ih h place
    obtain ⟨hb, hcs⟩ := h.branch
    exact slides_collection hb hcs (fun place n hn hloose => ih n hn hloose place) place
  · intro m n ih h place column hc
    obtain ⟨hspelling, hn⟩ := h.wrap
    have hchild := ih hn (Mark.place m) (column + m.width) (by omega)
    rw [Int.add_right_comm] at hchild
    rw [lay_wrap, lay_wrap]
    exact ⟨(Shifted.of_unbroken hspelling).append hchild.text, hchild.hoisted, hchild.unbroken, rfl⟩
  · intro m t ihm iht h place column hc
    obtain ⟨hm, ht⟩ := h.annotated
    have hmoved : column + k + 1 = column + 1 + k := Int.add_right_comm ..
    have hmeta : (layout table (column + 1) m).Shifts k (layout table (column + 1 + k) m) :=
      ihm hm .plain (column + 1) (by omega)
    have hbehind := hmeta.text.endColumn (column + 1)
    have hend := le_endColumn (Int.le_refl 0) (show 0 ≤ column + 1 by omega)
      (layout table (column + 1) m).node.text
    rw [lay_annotated, lay_annotated]
    simp only [hmoved, hbehind]
    -- The target starts one space behind the metadata.
    generalize endColumn (column + 1) (layout table (column + 1) m).node.text = start at hend
    have htarget : (layout table (start + 1) t).Shifts k (layout table (start + k + 1) t) := by
      rw [Int.add_right_comm]
      exact iht ht .plain (start + 1) (by omega)
    have hcaret : Shifted k "^" "^" := .of_unbroken (by simp [Unbroken])
    have hspace : Shifted k " " " " := .of_unbroken (by simp [Unbroken])
    exact ⟨((hcaret.append hmeta.text).append hspace).append htarget.text,
      by simp only [hmeta.hoisted, htarget.hoisted],
      List.forall_mem_append.mpr ⟨hmeta.unbroken, htarget.unbroken⟩, rfl⟩
  · intro h
    cases h.lacks

/-- **Layout is equivariant.**  A node of the shape that reading builds that is not white space and
    has no line feed in its own texts, laid out `k` columns further to the right, comes out with `k`
    more spaces behind every line feed that no other one follows, and the same comments leave it. -/
theorem layout_shift {n : Node} (hshape : n.lacks Node.misshapen = true)
    (hlines : n.lacks Node.breaksLine = true) (hnoise : n.isNoise = false) (table : Table)
    {column : Int} (hc : 0 ≤ column) (k : Nat) :
    (layout table (column + k) n).hoisted = (layout table column n).hoisted ∧
      ∃ text, (layout table column n).node.written? = some text ∧
        (layout table (column + k) n).node.written? =
          some (String.ofList (shiftLines k text.toList)) := by
  have hlacks : n.lacks sticks = true := Node.lacks_or hshape hlines
  have hmoved : (layout table column n).Shifts k (layout table (column + k) n) := by
    cases hform : n.isForm with
    | true => exact slides_lay table n ⟨hlacks, hform⟩ .plain column hc
    | false =>
      obtain ⟨kind, text, rfl⟩ := Node.leaf_of_not_form hform
      have htext := unbroken_leaf hnoise (Node.lacks_leaf.mp hlacks)
      have hleaf : ∀ c, layout table c (.leaf kind text) = { node := tidyLeaf kind text } :=
        fun c => lay_leaf .plain c kind text
      rw [hleaf, hleaf]
      cases kind with
      | comment =>
        exact ⟨.of_unbroken (Comment.unbroken_tidy htext), rfl, by rintro text ⟨⟩, rfl⟩
      | atom => cases hform
      | _ => cases hnoise
  refine ⟨hmoved.hoisted, _, if_pos (isKnown_layout hshape table column), ?_⟩
  rw [← hmoved.text.text, String.ofList_toList]
  exact if_pos (isKnown_layout hshape table (column + k))

/-- Clauses with a comment and an empty line between them. -/
theorem layout_shift_clauses :
    ∃ n : Node, n = .list [.atom "cond", .space " ", .comment ";a", .newline "\n", .atom "a",
        .list [.atom "f", .atom "b", .atom "c"], .atom "d", .atom "e"] ∧
      n.lacks Node.misshapen = true ∧ n.lacks Node.breaksLine = true ∧ n.isNoise = false ∧
      (0 : Int) ≤ 2 ∧
      (layout .standard (2 + (3 : Nat)) n).hoisted = (layout .standard 2 n).hoisted ∧
        ∃ text, (layout .standard 2 n).node.written? = some text ∧
          (layout .standard (2 + (3 : Nat)) n).node.written? =
            some (String.ofList (shiftLines 3 text.toList)) :=
  ⟨_, rfl, by decide, by decide, rfl, by decide,
    layout_shift (by decide) (by decide) rfl .standard (by decide) 3⟩

end CljTidy.Layout
