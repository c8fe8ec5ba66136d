/-
  Laying out what was laid out.

  An item is fixed at a column if it comes out as it is and no comment leaves it.  If the items of a
  page settle, that is, come out fixed, then the page made of the items of a page is that page once
  more, and nothing leaves it (`page_again`): the comments that left are gone, those that were moved
  stand where they would be moved to, and every line takes the same items.
-/
import CljTidy.Proofs.Layout.Flow
import CljTidy.Proofs.Token.Spelling

namespace CljTidy.Layout

/-! ## Fixed items -/

/-- The item comes out as it is, and no comment leaves it. -/
structure Fixed (lay : Lay) (column : Int) (i : Item) : Prop where
  settle : settle lay column i = i
  leaving : leaving lay column i = []

/-- At every column, what comes out of the item is fixed there. -/
def Rests (lay : Lay) (i : Item) : Prop :=
  ∀ column, Fixed lay column (Layout.settle lay column i)

/-- Wherever the item is laid out, what comes out is fixed there. -/
def Settles (lay : Lay) (i : Item) : Prop := ∀ place : Place, Rests (place.lay lay) i

section

variable {lay : Lay} {column : Int}

/-- A fixed item settles to itself. -/
theorem Fixed.settled {i : Item} (h : Fixed lay column i) : settled lay column i = [i] := by
  rw [Layout.settled, h.settle, h.leaving]
  rfl

/-- A tidy comment stays tidy, -/
theorem ofComment_tidy (text : String) : Item.ofComment (Comment.tidy text) = .ofComment text := by
  rw [Item.ofComment, Comment.tidy_tidy]
  rfl

/-- so comments are fixed once they are written. -/
theorem fixed_ofComment (lay : Lay) (column : Int) (text : String) :
    Fixed lay column (.ofComment text) := ⟨ofComment_tidy text, rfl⟩

/-- Settling an element does not depend on its trailing comment. -/
theorem settle_bare (lay : Lay) (column : Int) {i : Item} (hi : i.isComment = false) :
    settle lay column i.bare = (settle lay column i).bare := by
  have hbare : i.bare.isComment = false := hi
  simp only [settle, hi, hbare]
  rfl

/-- A fixed element is fixed without its comment, -/
theorem Fixed.bare {i : Item} (hi : i.isComment = false) (h : Fixed lay column i) :
    Fixed lay column i.bare :=
  ⟨by rw [settle_bare lay column hi, h.settle], h.leaving⟩

/-- and the same holds of one that comes out fixed, -/
theorem Rests.bare (hlay : KeepsFace lay) {i : Item} (hi : i.isComment = false)
    (h : Rests lay i) : Rests lay i.bare := by
  intro column
  rw [settle_bare _ column hi]
  exact (h column).bare ((hlay.isComment_settle column i).trans hi)

/-- at every place. -/
theorem Settles.bare (hlay : Faithful lay) {i : Item} (hi : i.isComment = false)
    (h : Settles lay i) : Settles lay i.bare := fun place => (h place).bare (hlay place) hi

/-- All that an item settles to is fixed: the comments that left it, and what came out. -/
theorem Rests.settled {i : Item} (h : Rests lay i) (column : Int) :
    ∀ j ∈ settled lay column i, Fixed lay column j := by
  intro j hj
  rcases List.mem_append.mp hj with hj | hj
  · obtain ⟨text, -, rfl⟩ := List.mem_map.mp hj
    exact fixed_ofComment _ _ text
  · rw [List.mem_singleton.mp hj]
    exact h column

/-- Items that no comment leaves come out one by one. -/
theorem flatMap_settled_of_leaving {items : List Item}
    (h : ∀ i ∈ items, leaving lay column i = []) :
    items.flatMap (settled lay column) = items.map (settle lay column) := by
  induction items with
  | nil => rfl
  | cons i items ih =>
    rw [List.flatMap_cons, settled, h i (List.mem_cons_self ..),
      ih fun j hj => h j (List.mem_cons_of_mem _ hj)]
    rfl

/-- Fixed items stay as they are. -/
theorem flatMap_settled_of_fixed {items : List Item} (h : ∀ i ∈ items, Fixed lay column i) :
    items.flatMap (settled lay column) = items := by
  rw [flatMap_settled_of_leaving fun i hi => (h i hi).leaving]
  conv => rhs; rw [← List.map_id items]
  exact List.map_congr_left fun i hi => (h i hi).settle

/-- So settling twice is settling once. -/
theorem settledAll_again {items : List Item} (h : ∀ i ∈ items, Rests lay i) (column : Int) :
    (items.flatMap (settled lay column)).flatMap (settled lay column) =
      items.flatMap (settled lay column) := by
  refine flatMap_settled_of_fixed fun j hj => ?_
  obtain ⟨i, hi, hj⟩ := List.mem_flatMap.mp hj
  exact (h i hi).settled column j hj

end

/-! ## Records -/

/-- What a record comes out as: comments, and the record with its items settled. -/
def settledRecord (lay : Lay) (mid : Gap) (column : Int) : Record → List Record
  | .comment text => [.comment (Comment.tidy text)]
  | .orphan i =>
      (leaving lay column i).map (fun text => .comment (Comment.tidy text)) ++
        [.orphan (settle lay column i)]
  | .pair key value =>
      let behind := mid.column ((settle lay column key).ending column)
      (leaving lay column key ++ leaving lay behind value).map
          (fun text => .comment (Comment.tidy text)) ++
        [.pair (settle lay column key) (settle lay behind value)]

/-- Comments as records are comments as items. -/
theorem itemsAll_comments (texts : List String) :
    Record.itemsAll (texts.map fun text => .comment (Comment.tidy text)) =
      texts.map .ofComment := by
  induction texts with
  | nil => rfl
  | cons text texts ih => exact congrArg (Item.ofComment text :: ·) ih

/-- The rows of a record hold what the record comes out as, -/
theorem items_recordRows (lay : Lay) (mid : Gap) (column : Int) (g : Gap) (r : Record) :
    (recordRows lay mid column g r).items =
      Record.itemsAll (settledRecord lay mid column r) := by
  cases r with
  | comment text => rfl
  | orphan i =>
    simp [recordRows, settledRecord, settled, itemsAll_comments, Record.items,
      Record.itemsAll_append]
  | pair key value =>
    simp [recordRows, settledRecord, itemsAll_comments, Record.items, Record.itemsAll_append]

/-- and so does the script of records. -/
theorem items_recordScript (lay : Lay) (mid : Gap) (column : Int) (next : Record → Gap) (g : Gap)
    (records : List Record) :
    (recordScript lay mid column next g records).items =
      Record.itemsAll (records.flatMap (settledRecord lay mid column)) := by
  induction records generalizing g with
  | nil => rfl
  | cons r records ih =>
    rw [recordScript, Script.items_append, items_recordRows, ih, List.flatMap_cons,
      Record.itemsAll_append]

/-- What leaves a record is comments. -/
theorem isComment_mapped (texts : List String) :
    ∀ r ∈ texts.map (fun text => Record.comment (Comment.tidy text)),
      ∃ text, r = Record.comment text := by
  intro r hr
  obtain ⟨text, -, rfl⟩ := List.mem_map.mp hr
  exact ⟨_, rfl⟩

/-- What records come out as is paired if they were. -/
theorem paired_settled {lay : Lay} (hlay : Faithful lay) (mid : Gap) (column : Int)
    {records : List Record} (h : Record.Paired records) :
    Record.Paired (records.flatMap (settledRecord lay mid column)) := by
  have hcomment : ∀ (c : Int) {i : Item}, i.isComment = false →
      (settle lay c i).isComment = false :=
    fun c i hi => ((hlay .plain).isComment_settle c i).trans hi
  induction records with
  | nil => trivial
  | cons r records ih =>
    rw [List.flatMap_cons]
    cases r with
    | comment text => exact ⟨trivial, ih h.2⟩
    | orphan i =>
      obtain ⟨hi, hrest⟩ := h
      rw [settledRecord, List.append_assoc]
      refine Record.paired_append (isComment_mapped _) ⟨hcomment column hi, fun r hr => ?_⟩
      obtain ⟨s, hs, hr⟩ := List.mem_flatMap.mp hr
      obtain ⟨text, rfl⟩ := hrest s hs
      exact ⟨_, List.mem_singleton.mp hr⟩
    | pair key value =>
      obtain ⟨⟨hkey, hnone, hvalue⟩, hrest⟩ := h
      rw [settledRecord, List.append_assoc]
      refine Record.paired_append (isComment_mapped _) ⟨⟨hcomment column hkey, ?_, ?_⟩, ih hrest⟩
      · simp [settle, hkey, hnone]
      · exact hcomment _ hvalue

section

variable {lay : Lay} {mid : Gap} {column : Int} {next : Record → Gap}
  (hcomments : ∀ text, next (.comment text) = .line column false)

include hcomments

/-- Comment records in front of a record are rows in front of its rows. -/
theorem recordScript_comments (g : Gap) (texts : List String) (more : List Item) (r : Record)
    (records : List Record) (s : Script)
    (h : ∀ g, recordRows lay mid column g r = rows column g more ++ s) :
    recordScript lay mid column next g
        (texts.map (fun text => .comment (Comment.tidy text)) ++ r :: records) =
      rows column g (texts.map .ofComment ++ more) ++ s ++
        recordScript lay mid column next (next r) records := by
  induction texts generalizing g with
  | nil => rw [List.map_nil, List.nil_append, recordScript, h]; rfl
  | cons text texts ih =>
    rw [List.map_cons, List.cons_append, recordScript, hcomments, ih, recordRows, ofComment_tidy]
    rfl

/-- Records that come out once more come out the same. -/
theorem recordScript_again
    (hnext : ∀ r r' : Record, r.isComment = r'.isComment → next r = next r')
    {records : List Record} (h : ∀ i ∈ Record.itemsAll records, Settles lay i) (g : Gap) :
    recordScript lay mid column next g (records.flatMap (settledRecord lay mid column)) =
      recordScript lay mid column next g records := by
  induction records generalizing g with
  | nil => rfl
  | cons r records ih =>
    have hrest := ih fun i hi => h i (List.mem_append_right _ hi)
    rw [List.flatMap_cons, recordScript]
    cases r with
    -- A comment that was written is tidy, and stays.
    | comment text =>
      rw [settledRecord, List.singleton_append, recordScript, hcomments, hrest, hcomments,
        recordRows, recordRows, ofComment_tidy]
    -- What leaves an orphan went above it; what stays is fixed, and nothing leaves it any more.
    | orphan i =>
      have hi : Fixed lay column (settle lay column i) :=
        h i (by simp [Record.items]) .plain column
      rw [settledRecord, List.append_assoc, List.singleton_append,
        recordScript_comments hcomments g _ [settle lay column i] _ _ []
          (fun g => by rw [recordRows, hi.settled, List.append_nil]),
        hnext (.orphan (settle lay column i)) (.orphan i) rfl, hrest]
      simp [recordRows, settled]
    -- The same for a key and, behind it, its value; their comments went above both.
    | pair key value =>
      have hkey : Fixed lay column (settle lay column key) :=
        h key (by simp [Record.items]) .plain column
      have hvalue : Fixed lay (mid.column ((settle lay column key).ending column))
          (settle lay (mid.column ((settle lay column key).ending column)) value) :=
        h value (by simp [Record.items]) .plain _
      rw [settledRecord, List.append_assoc, List.singleton_append,
        recordScript_comments hcomments g _ [settle lay column key] _ _ [⟨mid, settle lay _ value⟩]
          (fun g => by
            simp only [recordRows, hkey.settle, hkey.leaving, hvalue.settle, hvalue.leaving]
            rfl),
        hnext (.pair (settle lay column key) _) (.pair key value) rfl, hrest]
      rfl

/-- **Records again.**  The script of the items of a record script is that script. -/
theorem recordScript_ofItems_again (hlay : Faithful lay)
    (hnext : ∀ r r' : Record, r.isComment = r'.isComment → next r = next r') {items : List Item}
    (h : ∀ i ∈ items, Settles lay i) (g : Gap) :
    recordScript lay mid column next g
        (Record.ofItems (recordScript lay mid column next g (Record.ofItems items)).items) =
      recordScript lay mid column next g (Record.ofItems items) := by
  rw [items_recordScript,
    Record.ofItems_itemsAll (paired_settled hlay mid column (Record.paired_ofItems items))]
  refine recordScript_again hcomments hnext ?_ g
  refine Record.forall_ofItems (fun i hi hs => hs.bare hlay hi) (fun _ _ text _ place column => ?_) h
  exact fixed_ofComment _ _ text

end

/-! ## Calls -/

/-- What keeps faces may lay out anything. -/
theorem serves_anywhere {l : Lay} (h : KeepsFace l) (low : Int) :
    Serves (fun _ _ => True) low l := ⟨h, fun _ _ => trivial⟩

section

variable {lay argumentLay bodyLay : Lay} (hlay : KeepsFace lay) (hargument : KeepsFace argumentLay)
  (hbody : KeepsFace bodyLay)

/-- There are elements among settled items if there were. -/
theorem isEmpty_settledAll {lay : Lay} (hlay : KeepsFace lay) (column : Int) (items : List Item) :
    (Item.elements (items.flatMap (settled lay column))).isEmpty =
      (Item.elements items).isEmpty := by
  obtain ⟨low, -, hc⟩ := exists_low column
  obtain ⟨ps, h⟩ := Account.settledAll (serves_anywhere hlay low) hc items
  have hlength : (Item.elements (items.flatMap (settled lay column))).length =
      (Item.elements items).length := by
    have hin := congrArg List.length h.input
    have hout := congrArg List.length h.output
    simp only [Item.cores, List.length_map] at hin hout
    omega
  rw [Bool.eq_iff_iff, List.isEmpty_iff_length_eq_zero, List.isEmpty_iff_length_eq_zero, hlength]

include hargument

/-- An argument that came out without a comment is taken again as it is. -/
theorem argumentLine_taken (hoist : Bool) {n : Nat} {column : Int} {i : Item}
    (hi : i.isComment = false) (hs : Rests argumentLay i) (more : List Item) :
    let j := settle argumentLay (column + 1) i.bare
    argumentLine argumentLay hoist (n + 1) column (j :: more) =
      (argumentLine argumentLay hoist n (j.ending (column + 1)) more).after [⟨.space, j⟩] [] := by
  intro j
  have hj : Fixed argumentLay (column + 1) j := hs.bare hargument hi (column + 1)
  have hcomment : j.isComment = false := (hargument.isComment_settle _ i.bare).trans hi
  have hnone : j.comment = none := by
    show (settle argumentLay (column + 1) i.bare).comment = none
    rw [settle_bare _ _ hi]
    rfl
  rw [argumentLine, if_neg (Bool.eq_false_iff.mp hcomment)]
  simp only [hnone, Item.bare_eq hnone, hj.settle, hj.leaving]

include hbody

/-- The arguments of a call line are taken again, and what is below is left again. -/
theorem argumentLine_again (margin : Int) (hoist : Bool) (n : Nat) (column : Int)
    (items : List Item) (h : ∀ i ∈ items, Rests argumentLay i) :
    let line := argumentLine argumentLay hoist n column items
    let below := line.rest.flatMap (settled bodyLay margin)
    argumentLine argumentLay hoist n column (line.script.items ++ below) =
      ⟨line.script, [], below⟩ := by
  fun_induction argumentLine argumentLay hoist n column items with
  | case1 => simp [argumentLine]
  | case2 => simp [argumentLine]
  -- The comment has left, so it is not there the second time.
  | case3 n column i items hi hh ih =>
    exact ih fun j hj => h j (List.mem_cons_of_mem _ hj)
  -- The comment is the first item below, and ends the line again.
  | case4 n column i items hi hh =>
    have hfirst : settled bodyLay margin i = [.ofComment i.element.text] := by
      simp [settled, settle, leaving, hi]
    intro line below
    show argumentLine argumentLay hoist (n + 1) column
      (settled bodyLay margin i ++ items.flatMap (settled bodyLay margin)) =
        ⟨[], [], settled bodyLay margin i ++ items.flatMap (settled bodyLay margin)⟩
    have hcomment : (Item.ofComment i.element.text).isComment = true := rfl
    rw [hfirst, List.singleton_append, argumentLine, if_pos hcomment, if_neg hh]
  -- The argument is fixed; whatever comment it had has left or was none.
  | case5 n column i items hi j comments hcomment ih =>
    have hi : i.isComment = false := Bool.eq_false_iff.mpr hi
    have hrest := ih fun k hk => h k (List.mem_cons_of_mem _ hk)
    exact (argumentLine_taken hargument hoist hi (h i (List.mem_cons_self ..)) _).trans
      (congrArg (Line.after [⟨.space, j⟩] []) hrest)
  | case6 n column i items hi j comments text hcomment hn ih =>
    have hi : i.isComment = false := Bool.eq_false_iff.mpr hi
    have hrest := ih fun k hk => h k (List.mem_cons_of_mem _ hk)
    exact (argumentLine_taken hargument hoist hi (h i (List.mem_cons_self ..)) _).trans
      (congrArg (Line.after [⟨.space, j⟩] []) hrest)
  -- The argument closes the line again: below there are as many elements to find as there were.
  | case7 n column i items hi comments text hcomment hn =>
    have hi : i.isComment = false := Bool.eq_false_iff.mpr hi
    have hj := h i (List.mem_cons_self ..) (column + 1)
    have hj' := (hargument.isComment_settle (column + 1) i).trans hi
    have hsome : (settle argumentLay (column + 1) i).comment = some (Comment.tidy text) := by
      simp [settle, hi, hcomment]
    have hstop : ¬ (n ≠ 0 ∧ hoist = true ∧
        (!(Item.elements (items.flatMap (settled bodyLay margin))).isEmpty) = true) := by
      rw [isEmpty_settledAll hbody margin]
      exact hn
    intro line below
    show argumentLine argumentLay hoist (n + 1) column
      (settle argumentLay (column + 1) i :: items.flatMap (settled bodyLay margin)) = _
    rw [argumentLine, if_neg (Bool.eq_false_iff.mp hj')]
    simp only [hsome, if_neg hstop, hj.settle, (hj.bare hj').leaving]
    rfl

include hlay

/-- The head takes the same arguments again. -/
theorem headLine_again (margin : Int) (style : CallStyle) {column : Int} {head : Item}
    (hhead : head.isComment = false) {items : List Item} (hs : Rests lay head)
    (h : ∀ i ∈ items, Rests argumentLay i) {line : Line}
    (hline : headLine lay argumentLay style column head items = line) :
    ∃ j more, line.script.items = j :: more ∧ j.isComment = false ∧
      headLine lay argumentLay style column j
          (more ++ line.rest.flatMap (settled bodyLay margin)) =
        ⟨line.script, [], line.rest.flatMap (settled bodyLay margin)⟩ := by
  have hfixed : Fixed lay (column + 1) (settle lay (column + 1) head) := hs (column + 1)
  have hopen : (settle lay (column + 1) head).isComment = false :=
    (hlay.isComment_settle _ head).trans hhead
  have hbare := hfixed.bare hopen
  rw [← settle_bare lay _ hhead] at hbare
  have hnone : (settle lay (column + 1) head.bare).comment = none := by
    rw [settle_bare lay _ hhead]
    rfl
  have hagain := argumentLine_again hargument hbody margin style.hoist style.arguments
    ((settle lay (column + 1) head.bare).ending (column + 1)) items h
  -- A head without a comment, with its arguments.
  have harguments : ∀ comments : List String,
      (argumentLine argumentLay style.hoist style.arguments
        ((settle lay (column + 1) head.bare).ending (column + 1)) items).after
          [⟨.none, settle lay (column + 1) head.bare⟩] comments = line →
      ∃ j more, line.script.items = j :: more ∧ j.isComment = false ∧
        headLine lay argumentLay style column j
            (more ++ line.rest.flatMap (settled bodyLay margin)) =
          ⟨line.script, [], line.rest.flatMap (settled bodyLay margin)⟩ := by
    rintro comments rfl
    refine ⟨settle lay (column + 1) head.bare, _, rfl,
      (hlay.isComment_settle _ head.bare).trans hhead, ?_⟩
    unfold headLine
    simp only [hnone, Item.bare_eq hnone, hbare.settle, hbare.leaving]
    exact congrArg (Line.after [⟨.none, settle lay (column + 1) head.bare⟩] []) hagain
  unfold headLine at hline
  cases hcomment : head.comment with
  | none =>
    simp only [hcomment] at hline
    exact harguments _ hline
  | some text =>
    by_cases hh : style.hoist = true
    · simp only [hcomment, if_pos hh] at hline
      exact harguments _ hline
    · simp only [hcomment, if_neg hh] at hline
      subst hline
      refine ⟨settle lay (column + 1) head, [], rfl, hopen, ?_⟩
      have hsome : (settle lay (column + 1) head).comment = some (Comment.tidy text) := by
        simp [settle, hhead, hcomment]
      unfold headLine
      simp only [hsome, if_neg hh, hfixed.settle, (hfixed.bare hopen).leaving]
      rfl

/-- A call whose items are laid out again. -/
theorem callPage_again (style : CallStyle) (column : Int) {head : Item}
    (hhead : head.isComment = false) {items : List Item} (hs : Rests lay head)
    (harguments : ∀ i ∈ items, Rests argumentLay i) (hbelow : ∀ i ∈ items, Rests bodyLay i) :
    let p := callPage lay argumentLay bodyLay style column head items
    ∃ j more, p.script.items = j :: more ∧ j.isComment = false ∧
      callPage lay argumentLay bodyLay style column j more = ⟨p.script, [], p.margin⟩ := by
  obtain ⟨low, hlow, hc⟩ := exists_low column
  obtain ⟨taken, htaken, -⟩ := Account.headLine hlow (serves_anywhere hlay low)
    (serves_anywhere hargument low) style hc hhead items
  generalize hline : headLine lay argumentLay style column head items = line at htaken
  obtain ⟨j, more, hitems, hj, hagain⟩ := headLine_again hlay hargument hbody
    (style.bodyColumn.getD (firstColumn column line.script)) style hhead hs harguments hline
  have hrest : ∀ i ∈ line.rest, Rests bodyLay i :=
    fun i hi => hbelow i (by rw [htaken]; exact List.mem_append_right _ hi)
  refine ⟨j, more ++ line.rest.flatMap
    (settled bodyLay (style.bodyColumn.getD (firstColumn column line.script))), ?_, hj, ?_⟩
  · simp only [callPage, hline, Script.items_append, hitems, items_rows, List.cons_append]
  · simp only [callPage, hline, hagain, settledAll_again hrest]

end

/-! ## Clauses -/

section

variable {lay : Lay} (hlay : Faithful lay)

include hlay

omit hlay in
/-- Below the line of the head, comments take no place. -/
theorem leadingLine_comments (margin column : Int) (n : Nat) (texts : List String)
    (items : List Item) :
    leadingLine lay margin (n + 1) false column (texts.map .ofComment ++ items) =
      (leadingLine lay margin (n + 1) false column items).after
        (rows margin (.line margin false) (texts.map .ofComment)) [] := by
  induction texts with
  | nil => rfl
  | cons text texts ih =>
    have hcomment : (Item.ofComment text).isComment = true := rfl
    rw [List.map_cons, List.cons_append, leadingLine, if_pos hcomment, ih]
    show Line.after [⟨_, .ofComment (Comment.tidy text)⟩] _ _ = _
    rw [ofComment_tidy]
    rfl

/-- The items in front of the clauses are taken again. -/
theorem leadingLine_again (margin : Int) (n : Nat) (inline : Bool) (column : Int)
    (items : List Item) (h : ∀ i ∈ items, Settles lay i) (below : List Item)
    (hbelow : (leadingLine lay margin n inline column items).rest = [] → below = []) :
    leadingLine lay margin n inline column
        ((leadingLine lay margin n inline column items).script.items ++ below) =
      ⟨(leadingLine lay margin n inline column items).script, [], below⟩ := by
  fun_induction leadingLine lay margin n inline column items with
  | case1 => simp [leadingLine]
  | case2 =>
    obtain rfl := hbelow rfl
    simp [leadingLine]
  -- A comment that was written is tidy, and stays where it is.
  | case3 n inline column i items hi ih =>
    have hrest := ih (fun j hj => h j (List.mem_cons_of_mem _ hj)) hbelow
    have hcomment : (Item.ofComment i.element.text).isComment = true := rfl
    show leadingLine lay margin (n + 1) inline column (.ofComment i.element.text :: _) = _
    rw [leadingLine, if_pos hcomment]
    show Line.after [⟨_, .ofComment (Comment.tidy i.element.text)⟩] _ _ = _
    rw [ofComment_tidy]
    exact congrArg (Line.after [⟨.line margin false, .ofComment i.element.text⟩] []) hrest
  -- An item on the line of the head is fixed there.
  | case4 n column i items hi j ih =>
    have hi : i.isComment = false := Bool.eq_false_iff.mpr hi
    have hrest := ih (fun k hk => h k (List.mem_cons_of_mem _ hk)) hbelow
    have hj : Fixed lay (column + 1) j := h i (List.mem_cons_self ..) .plain (column + 1)
    have hopen : j.isComment = false := ((hlay .plain).isComment_settle _ i).trans hi
    have hnone : j.comment.isNone = i.comment.isNone := by simp [j, settle, hi]
    show leadingLine lay margin (n + 1) true column (j :: _) = _
    rw [leadingLine, if_neg (Bool.eq_false_iff.mp hopen), if_pos rfl]
    simp only [hj.settle, hj.leaving, hnone]
    exact congrArg (Line.after [⟨.space, j⟩] []) hrest
  -- Below it, the comments that left the item stand above it now, and are passed over.
  | case5 n inline column i items hi hinline ih =>
    have hi : i.isComment = false := Bool.eq_false_iff.mpr hi
    obtain rfl : inline = false := Bool.eq_false_iff.mpr hinline
    have hrest := ih (fun k hk => h k (List.mem_cons_of_mem _ hk)) hbelow
    have hj : Fixed lay margin (settle lay margin i) := h i (List.mem_cons_self ..) .plain margin
    have hopen : (settle lay margin i).isComment = false :=
      ((hlay .plain).isComment_settle _ i).trans hi
    have hstep : ∀ more, leadingLine lay margin (n + 1) false column (settle lay margin i :: more) =
        (leadingLine lay margin n false column more).after
          (rows margin (.line margin false) [settle lay margin i]) [] := by
      intro more
      rw [leadingLine, if_neg (Bool.eq_false_iff.mp hopen), if_neg (by decide), hj.settled]
    simp only [Line.after, Script.items_append, items_rows, settled, List.append_assoc,
      List.cons_append, List.nil_append]
    rw [leadingLine_comments, hstep, hrest, rows_line_append]
    simp [Line.after]

/-- Clauses that are laid out again. -/
theorem clausesPage_again (leading : Nat) (column : Int) {head : Item}
    (hhead : head.isComment = false) {items : List Item} (hs : Settles lay head)
    (h : ∀ i ∈ items, Settles lay i) :
    let p := clausesPage lay leading column head items
    ∃ j more, p.script.items = j :: more ∧ j.isComment = false ∧
      clausesPage lay leading column j more = ⟨p.script, [], p.margin⟩ := by
  -- The head is fixed where it stands.
  have hj : Fixed lay (column + 1) (settle lay (column + 1) head) := hs .plain (column + 1)
  have hopen : (settle lay (column + 1) head).isComment = false :=
    ((hlay .plain).isComment_settle _ head).trans hhead
  have hnone : (settle lay (column + 1) head).comment.isNone = head.comment.isNone := by
    simp [settle, hhead]
  obtain ⟨low, hlow, hc⟩ := exists_low column
  have hnext : low ≤ column + 1 := by omega
  have hm : low ≤ column + 2 := by omega
  have hplain : Serves (Somewhere lay low) low lay := serves_somewhere hlay low .plain
  obtain ⟨taken, htaken, -⟩ := Account.leadingLine hplain hlow hm leading head.comment.isNone _
    (le_ending hlow hnext (settle lay (column + 1) head)) items
  -- Behind it the leading items are found again, and below them the records.
  have hline := leadingLine_again hlay (column + 2) leading head.comment.isNone
    ((settle lay (column + 1) head).ending (column + 1)) items h
  simp only [clausesPage]
  generalize leadingLine lay (column + 2) leading head.comment.isNone
    ((settle lay (column + 1) head).ending (column + 1)) items = line at htaken hline ⊢
  -- What is left for the records are items of the clauses, so they settle.
  have hrest : ∀ i ∈ line.rest, Settles lay i :=
    fun i hi => h i (by rw [htaken]; exact List.mem_append_right _ hi)
  have hrecords := @recordScript_ofItems_again lay (.line (column + 2) false) (column + 2)
    (fun r => .line (column + 2) !r.isComment) (fun _ => rfl) hlay
    (fun r r' hr => by simp only [hr]) line.rest hrest (.line (column + 2) false)
  generalize hscript : recordScript lay (.line (column + 2) false) (column + 2)
    (fun r => .line (column + 2) !r.isComment) (.line (column + 2) false)
    (Record.ofItems line.rest) = script at hrecords ⊢
  have hagain := hline script.items fun hnil => by rw [← hscript, hnil]; rfl
  refine ⟨settle lay (column + 1) head, line.script.items ++ script.items, ?_, hopen, ?_⟩
  · rw [List.cons_append, Script.items_cons, Script.items_append]
  · rw [hnone, hj.settle, hj.leaving, hagain]
    simp only [hrecords, List.nil_append]

/-! ## Pages -/

omit hlay in
/-- A head and what is behind it are split as they stand. -/
theorem splitHead_cons {j : Item} (hj : j.isComment = false) (more : List Item) :
    Item.splitHead (j :: more) = ([], some j, more) := by
  simp [Item.splitHead, hj]

/-- A call or clauses with items that settle. -/
theorem form_again (form : Form) (column : Int) {head : Item} (hhead : head.isComment = false)
    {items : List Item} (hs : Settles lay head) (h : ∀ i ∈ items, Settles lay i) :
    let p := form.page lay column head items
    ∃ j more, p.script.items = j :: more ∧ j.isComment = false ∧
      form.page lay column j more = ⟨p.script, [], p.margin⟩ := by
  cases form with
  | call argument body arguments indent hoist =>
    exact callPage_again (hlay .plain) (hlay argument) (hlay body)
      ⟨arguments, indent.map (column + ·), hoist⟩ column hhead (hs .plain)
      (fun i hi => h i hi argument) fun i hi => h i hi body
  | clauses leading => exact clausesPage_again hlay leading column hhead hs h

/-- **Pages again.**  The page of the items of a page is that page, and nothing leaves it. -/
theorem page_again (plan : Plan) (column : Int) (b : Bracket) {items : List Item}
    (h : ∀ i ∈ items, Settles lay i) :
    plan.page lay column b (plan.page lay column b items).script.items =
      ⟨(plan.page lay column b items).script, [], (plan.page lay column b items).margin⟩ := by
  cases plan with
  | sequence =>
    have hagain := settledAll_again (fun i hi => h i hi .plain) (column + b.width)
    simp only [Plan.page, sequencePage, items_rows]
    exact congrArg (fun out => Page.mk (rows _ .none out) [] _) hagain
  | pairs =>
    have hagain := @recordScript_ofItems_again lay .space (column + b.width)
      (fun _ => .line (column + b.width) false) (fun _ => rfl) hlay
      (fun _ _ _ => rfl) items h .none
    exact congrArg (fun script => Page.mk script [] _) hagain
  | headed form =>
    rcases hsplit : Item.splitHead items with ⟨leading, head, rest⟩
    obtain ⟨-, hhead, hitems, -⟩ := Item.splitHead_spec hsplit
    cases head with
    | none =>
      simp only [Plan.page, hsplit]
      rfl
    | some head =>
      have hmem : ∀ i ∈ head :: rest, Settles lay i :=
        fun i hi => h i (by rw [hitems]; exact List.mem_append_right _ hi)
      obtain ⟨hs, hrest⟩ := List.forall_mem_cons.mp hmem
      obtain ⟨j, more, hscript, hj, hagain⟩ := form_again hlay form column (hhead head rfl) hs hrest
      simp only [Plan.page, hsplit, hscript, splitHead_cons hj, hagain]
      rfl

end

end CljTidy.Layout
