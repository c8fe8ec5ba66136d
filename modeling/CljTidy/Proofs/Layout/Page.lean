/-
  Collections as pages.

  A page is what becomes of the items of a collection: the script of its children, the comments that
  leave it, and the margin its closing bracket goes to when a comment stands last.  Sequences,
  pairs, calls and clauses are four ways to make a page.  Each is a recursion over the items, and
  each is shown to be what the layout of the same name writes (`shows_sequence`, `shows_pairs`,
  `shows_call`, `shows_clauses`).
-/
import CljTidy.Layout.Rule
import CljTidy.Proofs.Layout.Script

namespace CljTidy.Layout

/-! ## Pages -/

/-- The script of a collection, the comments that leave it, and the margin of its bracket. -/
structure Page where
  script : Script
  leaving : List String
  margin : Int

namespace Page

/-- The children of a collection: no bracket goes behind a comment on the same line. -/
def children (p : Page) : List Node :=
  p.script.nodes ++ if p.script.closesLine then (Gap.line p.margin false).nodes else []

end Page

/-- A collection came out as a page. -/
structure Rendered.Shows (r : Rendered) (b : Bracket) (p : Page) : Prop where
  node : r.node = .branch b p.children
  hoisted : r.hoisted = p.leaving

/-- Closing a draft breaks the line behind a comment, and only there. -/
theorem Draft.children_close (d : Draft) (column : Int) :
    (d.close column).children =
      d.sheet.nodes ++ if d.sheet.closed then (Gap.line column false).nodes else [] := by
  unfold Draft.close
  by_cases h : d.buffer.endsWithComment = true
  · rw [if_pos h, if_pos (show d.sheet.closed = true from h)]
    show ((d.leave (.line column false)).sheet).nodes = _
    rw [Draft.sheet_leave]
    rfl
  · rw [if_neg h, if_neg (show ¬ d.sheet.closed = true from h), List.append_nil]
    rfl

/-- Closing gathers no comments. -/
@[simp] theorem Draft.hoisted_close (d : Draft) (column : Int) :
    (d.close column).hoisted = d.sheet.hoisted := by
  unfold Draft.close
  split <;> rfl

/-- A draft on which a script was written, closed, has the children of the page. -/
theorem Draft.children_of_sheet {d : Draft} {start : Int} {p : Page}
    (h : d.sheet = ((Sheet.start start).write p.script).hoist p.leaving) :
    (d.close p.margin).children = p.children ∧ (d.close p.margin).hoisted = p.leaving := by
  rw [Draft.children_close, Draft.hoisted_close, h, Sheet.write_eq]
  refine ⟨?_, rfl⟩
  show [] ++ p.script.nodes ++ _ = _
  rw [List.nil_append]
  cases hs : p.script with
  | nil => simp [Page.children, hs, Sheet.hoist, Sheet.start, Script.closesLine]
  | cons q s => simp [Page.children, hs, Sheet.hoist]

/-! ## Sequences and pairs -/

/-- One item to a line. -/
def sequencePage (lay : Lay) (column : Int) (items : List Item) : Page :=
  ⟨rows column .none (items.flatMap (settled lay column)), [], column⟩

/-- The script of a record: the comments that leave it, then the key, and the value behind the gap
    `mid`. -/
def recordRows (lay : Lay) (mid : Gap) (column : Int) (g : Gap) : Record → Script
  | .comment text => [⟨g, .ofComment text⟩]
  | .orphan i => rows column g (settled lay column i)
  | .pair key value =>
      let k := settle lay column key
      let behind := mid.column (k.ending column)
      rows column g ((leaving lay column key ++ leaving lay behind value).map .ofComment ++ [k]) ++
        [⟨mid, settle lay behind value⟩]

/-- Records in a row; `next` is the gap behind a record. -/
def recordScript (lay : Lay) (mid : Gap) (column : Int) (next : Record → Gap) :
    Gap → List Record → Script
  | _, [] => []
  | g, r :: records =>
      recordRows lay mid column g r ++ recordScript lay mid column next (next r) records

/-- One pair to a line. -/
def pairsPage (lay : Lay) (column : Int) (items : List Item) : Page :=
  ⟨recordScript lay .space column (fun _ => .line column false) .none (Record.ofItems items), [],
    column⟩

/-- What `lines` writes, if each thing writes a script that depends on the gap in front of it. -/
theorem sheet_lines {α : Type} {column : Int} {w : Draft → α → Draft} {f : Gap → α → Script}
    (hw : ∀ (d : Draft) (g : Gap) (x : α), g.column d.column = column →
      (w (d.leave g) x).sheet = d.sheet.write (f g x))
    (x : α) (xs : List α) :
    ((Draft.start column).lines column w (x :: xs)).sheet =
      (Sheet.start column).write (f .none x ++ xs.flatMap (f (.line column false))) := by
  have hrest : ∀ (xs : List α) (d : Draft),
      (xs.foldl (fun d x => w (d.newline column) x) d).sheet =
        d.sheet.write (xs.flatMap (f (.line column false))) := by
    intro xs
    induction xs with
    | nil => intro d; rfl
    | cons x xs ih =>
      intro d
      rw [List.foldl_cons, ih, List.flatMap_cons, Sheet.write_append]
      exact congrArg (Sheet.write · _) (hw d (.line column false) x rfl)
  rw [Draft.lines, hrest, Sheet.write_append]
  exact congrArg (Sheet.write · _) (hw (Draft.start column) .none x rfl)

/-- Items below each other, each with the comments that leave it above. -/
theorem rows_flatMap_settled (lay : Lay) (column : Int) (items : List Item) :
    rows column (.line column false) (items.flatMap (settled lay column)) =
      items.flatMap fun i => rows column (.line column false) (settled lay column i) := by
  induction items with
  | nil => rfl
  | cons i items ih =>
    rw [List.flatMap_cons, List.flatMap_cons, ← ih, rows_append (settled_ne_nil lay column i)]

/-- **Sequences.** A row for each item. -/
theorem shows_sequence (lay : Lay) (column : Int) (b : Bracket) (cs : List Node) :
    (sequence lay column b cs).Shows b (sequencePage lay (column + b.width) (Item.group cs)) := by
  unfold sequence
  generalize column + (b.width : Int) = align
  have hsheet : ((Draft.start align).lines align (Draft.item lay false) (Item.group cs)).sheet =
      ((Sheet.start align).write (sequencePage lay align (Item.group cs)).script).hoist [] := by
    rw [Sheet.hoist_nil]
    cases Item.group cs with
    | nil => rfl
    | cons i items =>
      rw [sheet_lines (f := fun g i => rows align g (settled lay align i))
        fun d g i hg => by rw [Draft.sheet_item_above, hg]]
      show _ = (Sheet.start align).write (rows align .none ((i :: items).flatMap _))
      rw [List.flatMap_cons, ← rows_flatMap_settled, rows_append (settled_ne_nil lay align i)]
  have hchildren := (Draft.children_of_sheet hsheet).1
  exact ⟨congrArg (Node.branch b) hchildren, rfl⟩

/-- A key and a value with the gap `mid` between them, written aside and appended, are a record. -/
theorem sheet_pair (lay : Lay) (mid : Gap) (d : Draft) (g : Gap) (key value : Item) :
    ((d.leave g).append ((((Draft.start (d.leave g).column).item lay true key).leave mid).item lay
        true value)).sheet =
      d.sheet.write (recordRows lay mid (g.column d.column) g (.pair key value)) := by
  have hcolumn := Draft.column_leave d g
  have hkey : ((Draft.start (g.column d.column)).item lay true key).sheet =
      ((Sheet.start (g.column d.column)).write [⟨.none, settle lay (g.column d.column) key⟩]).hoist
        (leaving lay (g.column d.column) key) :=
    Draft.sheet_item_gather lay (Draft.start (g.column d.column)) .none key
  have hbehind : ((Draft.start (g.column d.column)).item lay true key).column =
      (settle lay (g.column d.column) key).ending (g.column d.column) := by
    rw [Draft.column_eq, hkey]
    rfl
  have hvalue := Draft.sheet_item_gather lay ((Draft.start (g.column d.column)).item lay true key)
    mid value
  rw [hkey, hbehind, Sheet.write_hoist, ← Sheet.write_append, Sheet.hoist_hoist, ← hcolumn] at hvalue
  rw [Draft.sheet_append d _ g _ _ _ hvalue, hcolumn]
  rfl

/-- A record is written as its rows. -/
theorem sheet_record (lay : Lay) (d : Draft) (g : Gap) (r : Record) :
    ((d.leave g).record lay r).sheet =
      d.sheet.write (recordRows lay .space (g.column d.column) g r) := by
  cases r with
  | comment text => simp [Draft.record, Draft.sheet_comment, recordRows, Sheet.write_cons]
  | orphan i => exact Draft.sheet_item_above lay d g i
  | pair key value => exact sheet_pair lay .space d g key value

/-- With one gap behind every record, the records are written one by one. -/
theorem recordScript_eq_flatMap (lay : Lay) (mid : Gap) (column : Int) (g : Gap)
    (records : List Record) :
    recordScript lay mid column (fun _ => g) g records =
      records.flatMap (recordRows lay mid column g) := by
  induction records with
  | nil => rfl
  | cons r records ih => rw [recordScript, ih, List.flatMap_cons]

/-- **Pairs.** A row for each record. -/
theorem shows_pairs (lay : Lay) (column : Int) (b : Bracket) (cs : List Node) :
    (pairs lay column b cs).Shows b (pairsPage lay (column + b.width) (Item.group cs)) := by
  unfold pairs
  generalize column + (b.width : Int) = align
  have hsheet : ((Draft.start align).lines align (Draft.record lay)
        (Record.ofItems (Item.group cs))).sheet =
      ((Sheet.start align).write (pairsPage lay align (Item.group cs)).script).hoist [] := by
    rw [Sheet.hoist_nil, pairsPage]
    cases Record.ofItems (Item.group cs) with
    | nil => rfl
    | cons r records =>
      rw [sheet_lines (f := recordRows lay .space align)
        fun d g r hg => by rw [sheet_record, hg]]
      show _ = (Sheet.start align).write (recordScript _ _ _ _ _ _)
      rw [recordScript, recordScript_eq_flatMap]
  have hchildren := (Draft.children_of_sheet hsheet).1
  exact ⟨congrArg (Node.branch b) hchildren, rfl⟩

/-! ## Calls -/

/-- A line under way: its script, the comments that leave, and the items still to be written. -/
structure Line where
  script : Script
  leaving : List String
  rest : List Item

/-- A line with more in front. -/
def Line.after (script : Script) (comments : List String) (l : Line) : Line :=
  ⟨script ++ l.script, comments ++ l.leaving, l.rest⟩

/-- Up to `n` arguments on the call line, behind something that ends at the column. -/
def argumentLine (lay : Lay) (hoist : Bool) : Nat → Int → List Item → Line
  | 0, _, items => ⟨[], [], items⟩
  | _, _, [] => ⟨[], [], []⟩
  | n + 1, column, i :: items =>
      if i.isComment then
        if hoist then (argumentLine lay hoist (n + 1) column items).after [] [i.element.text]
        else ⟨[], [], i :: items⟩
      else
        let j := settle lay (column + 1) i.bare
        let comments := leaving lay (column + 1) i.bare
        match i.comment with
        | none =>
            (argumentLine lay hoist n (j.ending (column + 1)) items).after [⟨.space, j⟩] comments
        | some text =>
            if n ≠ 0 ∧ hoist ∧ !(Item.elements items).isEmpty then
              (argumentLine lay hoist n (j.ending (column + 1)) items).after [⟨.space, j⟩]
                (comments ++ [text])
            else ⟨[⟨.space, settle lay (column + 1) i⟩], comments, items⟩

/-- The head and its arguments, on one line. -/
def headLine (lay argumentLay : Lay) (style : CallStyle) (column : Int) (head : Item)
    (items : List Item) : Line :=
  let h := settle lay (column + 1) head.bare
  let comments := leaving lay (column + 1) head.bare
  let arguments :=
    argumentLine argumentLay style.hoist style.arguments (h.ending (column + 1)) items
  match head.comment with
  | none => arguments.after [⟨.none, h⟩] comments
  | some text =>
      if style.hoist then arguments.after [⟨.none, h⟩] (comments ++ [text])
      else ⟨[⟨.none, settle lay (column + 1) head⟩], comments, items⟩

/-- Where the first argument on a call line starts; behind the bracket if there is none. -/
def firstColumn (column : Int) : Script → Int
  | h :: _ :: _ => h.ending (column + 1) + 1
  | _ => column + 1

/-- A head with arguments on its line, and the other items below. -/
def callPage (lay argumentLay bodyLay : Lay) (style : CallStyle) (column : Int) (head : Item)
    (items : List Item) : Page :=
  let line := headLine lay argumentLay style column head items
  let margin := style.bodyColumn.getD (firstColumn column line.script)
  ⟨line.script ++ rows margin (.line margin false) (line.rest.flatMap (settled bodyLay margin)),
    line.leaving, margin⟩

/-- Without its trailing comment an item is a comment if it was one, -/
theorem bare_isComment (i : Item) : i.bare.isComment = i.isComment := rfl

/-- A trailing comment written on its own is the one of the item. -/
theorem item_trailing (lay : Lay) {i : Item} (hi : i.isComment = false) (d : Draft) :
    (d.item lay true i.bare).trailing? i.comment = d.item lay true i := by
  simp only [Draft.item, bare_isComment, hi]
  rfl

/-- and the same comments leave it. -/
theorem leaving_bare (lay : Lay) (column : Int) (i : Item) :
    leaving lay column i.bare = leaving lay column i := rfl

/-- If comments may leave, a call line is its head and its arguments, and the head's comment leaves
    behind those in it. -/
theorem headLine_hoist (lay argumentLay : Lay) {style : CallStyle} (hhoist : style.hoist = true)
    (column : Int) (head : Item) (items : List Item) :
    headLine lay argumentLay style column head items =
      (argumentLine argumentLay true style.arguments
        ((settle lay (column + 1) head.bare).ending (column + 1)) items).after
          [⟨.none, settle lay (column + 1) head.bare⟩]
          (leaving lay (column + 1) head ++ head.comment.toList) := by
  unfold headLine
  cases head.comment <;> simp [hhoist, leaving_bare]

/-- A line written on a sheet. -/
def Sheet.line (s : Sheet) (l : Line) : Sheet := (s.write l.script).hoist l.leaving

/-- A line with more in front is written front first. -/
theorem Sheet.line_after (s : Sheet) (script : Script) (comments : List String) (l : Line) :
    s.line (l.after script comments) = ((s.write script).hoist comments).line l := by
  simp [Sheet.line, Line.after, Sheet.write_append, Sheet.write_hoist]

/-- What is on the call line behind the arguments, in terms of a line; the column of the first
    argument is the one known, or one space on. -/
structure CallLine.Shows (l : CallLine) (d : Draft) (first : Option Int) (line : Line) : Prop where
  sheet : l.draft.sheet = d.sheet.line line
  rest : l.rest = line.rest
  first : l.first = if line.script = [] then first else some (first.getD (d.column + 1))

/-- One more thing in front of a call line. -/
theorem CallLine.Shows.after {l : CallLine} {d e : Draft} {first : Option Int} {line : Line}
    {i : Item} {comments : List String} (h : l.Shows e (some (first.getD (d.column + 1))) line)
    (he : e.sheet = (d.sheet.write [⟨.space, i⟩]).hoist comments) :
    l.Shows d first (line.after [⟨.space, i⟩] comments) := by
  refine ⟨?_, h.rest, ?_⟩
  · rw [h.sheet, he, Sheet.line_after]
  · have hne : (line.after [⟨.space, i⟩] comments).script ≠ [] := by simp [Line.after]
    rw [h.first, if_neg hne]
    split <;> rfl

/-- The loop over the arguments writes the line: induction follows the loop, with one case for
    each way it goes on or stops. -/
theorem shows_placeArguments (lay : Lay) (hoist : Bool) (n : Nat) (first : Option Int) (d : Draft)
    (items : List Item) :
    (placeArguments lay hoist n first d items).Shows d first
      (argumentLine lay hoist n d.column items) := by
  have hitem : ∀ (d : Draft) (i : Item), (d.space.item lay true i).sheet =
      (d.sheet.write [⟨.space, settle lay (d.column + 1) i⟩]).hoist
        (leaving lay (d.column + 1) i) := fun d i => Draft.sheet_item_gather lay d .space i
  have hcolumn : ∀ (d : Draft) (i : Item), (d.space.item lay true i).column =
      (settle lay (d.column + 1) i).ending (d.column + 1) := by
    intro d i
    rw [Draft.column_eq, hitem]
    rfl
  have hspace : ∀ d : Draft, d.space.column = d.column + 1 := fun _ => rfl
  fun_induction placeArguments lay hoist n first d items with
  | case1 => refine ⟨?_, ?_, ?_⟩ <;> simp [argumentLine, Sheet.line]
  | case2 => refine ⟨?_, ?_, ?_⟩ <;> simp [argumentLine, Sheet.line]
  -- A comment in front leaves the list.
  | case3 n first d i items hi hh ih =>
    subst hh
    have hline : argumentLine lay true (n + 1) d.column (i :: items) =
        (argumentLine lay true (n + 1) d.column items).after [] [i.element.text] := by
      simp [argumentLine, hi]
    rw [hline]
    exact ⟨by rw [ih.sheet, Sheet.line_after]; rfl, ih.rest, ih.first⟩
  -- A comment that may not leave ends the line.
  | case4 n first d i items hi hh =>
    refine ⟨?_, ?_, ?_⟩ <;> simp [argumentLine, hi, hh, Sheet.line]
  -- An argument without a comment: the loop goes on behind it.
  | case5 n first d i items hi start written first' hc ih =>
    have hline : argumentLine lay hoist (n + 1) d.column (i :: items) =
        (argumentLine lay hoist n written.column items).after
          [⟨.space, settle lay (d.column + 1) i.bare⟩] (leaving lay (d.column + 1) i.bare) := by
      simp [argumentLine, hi, hc, written, hcolumn]
    rw [hline]
    exact ih.after (hitem d i.bare)
  -- Its comment leaves, since another argument is going to follow.
  | case6 n first d i items hi start written first' text hc hn ih =>
    have hline : argumentLine lay hoist (n + 1) d.column (i :: items) =
        (argumentLine lay hoist n written.column items).after
          [⟨.space, settle lay (d.column + 1) i.bare⟩]
          (leaving lay (d.column + 1) i.bare ++ [text]) := by
      rw [argumentLine, if_neg hi]
      simp only [hc, if_pos hn, written, hcolumn]
    rw [hline]
    refine ih.after ?_
    rw [Draft.sheet_hoist, hitem, Sheet.hoist_hoist]
  -- Its comment closes the line, so nothing more goes on it.
  | case7 n first d i items hi start written first' text hc hn =>
    have hline : argumentLine lay hoist (n + 1) d.column (i :: items) =
        ⟨[⟨.space, settle lay (d.column + 1) i⟩], leaving lay (d.column + 1) i, items⟩ := by
      rw [argumentLine, if_neg hi]
      simp only [hc, if_neg hn, leaving_bare]
    have htrailing := item_trailing lay (Bool.eq_false_iff.mpr hi) d.space
    rw [hc] at htrailing
    rw [hline]
    refine ⟨?_, rfl, rfl⟩
    show ((d.space.item lay true i.bare).trailing? (some text)).sheet = _
    rw [htrailing, hitem]
    rfl

/-- What is on the call line, as a line. -/
theorem shows_callLine (lay argumentLay : Lay) (style : CallStyle) (column : Int) {head : Item}
    (hhead : head.isComment = false) (items : List Item) :
    (callLine lay argumentLay style column head items).draft.sheet =
        (Sheet.start (column + 1)).line (headLine lay argumentLay style column head items) ∧
      (callLine lay argumentLay style column head items).rest =
        (headLine lay argumentLay style column head items).rest ∧
      (callLine lay argumentLay style column head items).first.getD (column + 1) =
        firstColumn column (headLine lay argumentLay style column head items).script := by
  have hitem : ∀ i : Item, ((Draft.start (column + 1)).item lay true i).sheet =
      ((Sheet.start (column + 1)).write [⟨.none, settle lay (column + 1) i⟩]).hoist
        (leaving lay (column + 1) i) :=
    fun i => Draft.sheet_item_gather lay (Draft.start (column + 1)) .none i
  -- Arguments behind the head, with some comments gathered.
  have harguments : ∀ (d : Draft) (comments : List String),
      d.sheet = ((Sheet.start (column + 1)).write
        [⟨.none, settle lay (column + 1) head.bare⟩]).hoist comments →
      let l := placeArguments argumentLay style.hoist style.arguments none d items
      let line := (argumentLine argumentLay style.hoist style.arguments
        ((settle lay (column + 1) head.bare).ending (column + 1)) items).after
          [⟨.none, settle lay (column + 1) head.bare⟩] comments
      l.draft.sheet = (Sheet.start (column + 1)).line line ∧ l.rest = line.rest ∧
        l.first.getD (column + 1) = firstColumn column line.script := by
    intro d comments hsheet l line
    have hd : d.column = (settle lay (column + 1) head.bare).ending (column + 1) := by
      rw [Draft.column_eq, hsheet]
      rfl
    have h := shows_placeArguments argumentLay style.hoist style.arguments none d items
    rw [hd] at h
    refine ⟨?_, h.rest, ?_⟩
    · rw [h.sheet, Sheet.line_after, hsheet]
    · rw [h.first, hd]
      cases hs : (argumentLine argumentLay style.hoist style.arguments
        ((settle lay (column + 1) head.bare).ending (column + 1)) items).script with
      | nil => simp [line, Line.after, hs, firstColumn]
      | cons p script => simp [line, Line.after, hs, firstColumn]; rfl
  unfold callLine headLine
  cases hc : head.comment with
  | none => exact harguments _ _ (hitem head.bare)
  | some text =>
    by_cases hh : style.hoist = true
    · simp only [if_pos hh]
      exact harguments _ _ (by rw [Draft.sheet_hoist, hitem, Sheet.hoist_hoist])
    · simp only [if_neg hh]
      have htrailing := item_trailing lay hhead (Draft.start (column + 1))
      rw [hc] at htrailing
      refine ⟨?_, trivial, rfl⟩
      show (((Draft.start (column + 1)).item lay true head.bare).trailing? (some text)).sheet = _
      rw [htrailing, hitem]
      rfl

/-- Only items behind the head are left for the lines below. -/
theorem headLine_rest_subset (lay argumentLay : Lay) (style : CallStyle) (column : Int)
    (head : Item) (items : List Item) :
    ∀ i ∈ (headLine lay argumentLay style column head items).rest, i ∈ items := by
  have hline : ∀ (hoist : Bool) (n : Nat) (column : Int) (items : List Item),
      ∀ i ∈ (argumentLine argumentLay hoist n column items).rest, i ∈ items := by
    intro hoist n column items
    fun_induction argumentLine argumentLay hoist n column items with
    | case1 => exact fun _ hi => hi
    | case2 => exact fun _ hi => hi
    | case3 n column j items hj hh ih => exact fun i hi => List.mem_cons_of_mem _ (ih i hi)
    | case4 => exact fun _ hi => hi
    | case5 n column j items hj k comments hc ih =>
      exact fun i hi => List.mem_cons_of_mem _ (ih i hi)
    | case6 n column j items hj k comments text hc hn ih =>
      exact fun i hi => List.mem_cons_of_mem _ (ih i hi)
    | case7 => exact fun _ hi => List.mem_cons_of_mem _ hi
  unfold headLine
  repeat' split
  · exact hline _ _ _ _
  · exact hline _ _ _ _
  · exact fun _ hi => hi

/-- The items below a call line. -/
theorem sheet_below (lay : Lay) (column : Int) (items : List Item) (d : Draft) :
    (items.foldl (fun d i => (d.newline column).item lay false i) d).sheet =
      d.sheet.write (rows column (.line column false) (items.flatMap (settled lay column))) := by
  induction items generalizing d with
  | nil => rfl
  | cons i items ih =>
    have hi : ((d.newline column).item lay false i).sheet =
        d.sheet.write (rows column (.line column false) (settled lay column i)) :=
      Draft.sheet_item_above lay d (.line column false) i
    rw [List.foldl_cons, ih, hi, List.flatMap_cons, rows_append (settled_ne_nil lay column i),
      Sheet.write_append]

/-- **Calls.** The line of the call, and the other items below. -/
theorem shows_call (lay argumentLay bodyLay : Lay) (style : CallStyle) (column : Int) {head : Item}
    (hhead : head.isComment = false) (items : List Item) :
    (call lay argumentLay bodyLay style column head items).Shows .list
      (callPage lay argumentLay bodyLay style column head items) := by
  obtain ⟨hsheet, hrest, hfirst⟩ := shows_callLine lay argumentLay style column hhead items
  simp only [call, callPage, hrest, hfirst]
  generalize style.bodyColumn.getD _ = margin
  have hdraft := sheet_below bodyLay margin
    (headLine lay argumentLay style column head items).rest
    (callLine lay argumentLay style column head items).draft
  rw [hsheet, Sheet.line, Sheet.write_hoist, ← Sheet.write_append] at hdraft
  obtain ⟨hchildren, hhoisted⟩ := Draft.children_of_sheet
    (p := ⟨_, (headLine lay argumentLay style column head items).leaving, margin⟩) hdraft
  exact ⟨congrArg Node.list hchildren, hhoisted⟩

/-! ## Clauses -/

/-- Up to `n` items behind the head: on its line while nothing closes it, then on lines at the
    margin. -/
def leadingLine (lay : Lay) (margin : Int) : Nat → Bool → Int → List Item → Line
  | 0, _, _, items => ⟨[], [], items⟩
  | _, _, _, [] => ⟨[], [], []⟩
  | n + 1, inline, column, i :: items =>
      if i.isComment then
        (leadingLine lay margin (n + 1) false column items).after
          [⟨.line margin false, .ofComment i.element.text⟩] []
      else if inline then
        let j := settle lay (column + 1) i
        (leadingLine lay margin n i.comment.isNone (j.ending (column + 1)) items).after
          [⟨.space, j⟩] (leaving lay (column + 1) i)
      else
        (leadingLine lay margin n false column items).after
          (rows margin (.line margin false) (settled lay margin i)) []

/-- Only items that were given are left. -/
theorem leadingLine_rest_subset (lay : Lay) (margin : Int) (n : Nat) (inline : Bool) (column : Int)
    (items : List Item) :
    ∀ i ∈ (leadingLine lay margin n inline column items).rest, i ∈ items := by
  fun_induction leadingLine lay margin n inline column items with
  | case1 => exact fun _ hi => hi
  | case2 => exact fun _ hi => hi
  | case3 n inline column j items hj ih => exact fun i hi => List.mem_cons_of_mem _ (ih i hi)
  | case4 n column j items hj k ih => exact fun i hi => List.mem_cons_of_mem _ (ih i hi)
  | case5 n inline column j items hj hinline ih =>
    exact fun i hi => List.mem_cons_of_mem _ (ih i hi)

/-- A head with leading items, and clauses below: an empty line in front of each, but not behind a
    comment. -/
def clausesPage (lay : Lay) (leading : Nat) (column : Int) (head : Item) (items : List Item) :
    Page :=
  let margin := column + 2
  let h := settle lay (column + 1) head
  let line := leadingLine lay margin leading head.comment.isNone (h.ending (column + 1)) items
  ⟨⟨.none, h⟩ :: line.script ++
      recordScript lay (.line margin false) margin (fun r => .line margin !r.isComment)
        (.line margin false) (Record.ofItems line.rest),
    Layout.leaving lay (column + 1) head ++ line.leaving, margin⟩

/-- Leading items on a sheet.  The column matters as long as something may go onto the line. -/
theorem sheet_placeLeading (lay : Lay) (margin : Int) (n : Nat) (inline : Bool) (d : Draft)
    (items : List Item) (column : Int) (h : inline = true → d.column = column) :
    let line := leadingLine lay margin n inline column items
    (placeLeading lay margin n inline d items).1.sheet = d.sheet.line line ∧
      (placeLeading lay margin n inline d items).2 = line.rest := by
  fun_induction placeLeading lay margin n inline d items generalizing column with
  | case1 => simp [leadingLine, Sheet.line]
  | case2 => simp [leadingLine, Sheet.line]
  -- A comment starts a line, and whatever follows starts one too.
  | case3 n inline d i items hi ih =>
    have hline : leadingLine lay margin (n + 1) inline column (i :: items) =
        (leadingLine lay margin (n + 1) false column items).after
          [⟨.line margin false, .ofComment i.element.text⟩] [] := by
      simp [leadingLine, hi]
    have hitem : ((d.newline margin).item lay false i).sheet =
        d.sheet.write [⟨.line margin false, .ofComment i.element.text⟩] := by
      have habove := Draft.sheet_item_above lay d (.line margin false) i
      simp only [settled, settle, leaving, hi, if_true, List.map_nil, List.nil_append,
        rows] at habove
      exact habove
    obtain ⟨hsheet, hrest⟩ := ih column (by rintro ⟨⟩)
    rw [hline]
    refine ⟨?_, hrest⟩
    rw [hsheet, Sheet.line_after, hitem, Sheet.hoist_nil]
  | case4 n inline d i items hi written ih =>
    cases inline with
    -- On the line of the head: behind a space, until a comment closes the line.
    | true =>
      obtain rfl : d.column = column := h rfl
      have hline : leadingLine lay margin (n + 1) true d.column (i :: items) =
          (leadingLine lay margin n i.comment.isNone
            ((settle lay (d.column + 1) i).ending (d.column + 1)) items).after
            [⟨.space, settle lay (d.column + 1) i⟩] (leaving lay (d.column + 1) i) := by
        simp [leadingLine, hi]
      have hitem : written.sheet = (d.sheet.write [⟨.space, settle lay (d.column + 1) i⟩]).hoist
          (leaving lay (d.column + 1) i) := Draft.sheet_item_gather lay d .space i
      obtain ⟨hsheet, hrest⟩ := ih ((settle lay (d.column + 1) i).ending (d.column + 1))
        (fun _ => by rw [Draft.column_eq, hitem]; rfl)
      rw [hline]
      exact ⟨by rw [hsheet, Sheet.line_after, hitem]; rfl, hrest⟩
    -- Below the head: a line of its own.
    | false =>
      have hline : leadingLine lay margin (n + 1) false column (i :: items) =
          (leadingLine lay margin n false column items).after
            (rows margin (.line margin false) (settled lay margin i)) [] := by
        simp [leadingLine, hi]
      have hitem : written.sheet =
          d.sheet.write (rows margin (.line margin false) (settled lay margin i)) :=
        Draft.sheet_item_above lay d (.line margin false) i
      obtain ⟨hsheet, hrest⟩ := ih column (by rintro ⟨⟩)
      rw [hline]
      exact ⟨by rw [hsheet, Sheet.line_after, hitem, Sheet.hoist_nil]; rfl, hrest⟩

/-- A clause is a record with its value on a line of its own. -/
theorem sheet_clause (lay : Lay) (d : Draft) (g : Gap) (r : Record) :
    ((d.leave g).clause lay r).sheet =
      d.sheet.write
        (recordRows lay (.line (g.column d.column) false) (g.column d.column) g r) := by
  cases r with
  | comment text => simp [Draft.clause, Draft.sheet_comment, recordRows, Sheet.write_cons]
  | orphan i => exact Draft.sheet_item_above lay d g i
  | pair key value =>
    rw [← sheet_pair lay _ d g, ← Draft.column_leave]
    rfl

/-- Clauses below each other: an empty line in front of each but the first, and none behind a
    comment. -/
theorem sheet_placeClauses (lay : Lay) (margin : Int) (blank : Bool) (d : Draft)
    (records : List Record) :
    (placeClauses lay margin blank d records).sheet =
      d.sheet.write (recordScript lay (.line margin false) margin
        (fun r => .line margin !r.isComment) (.line margin blank) records) := by
  induction records generalizing blank d with
  | nil => rfl
  | cons r records ih =>
    have hclause : ((d.newline margin blank).clause lay r).sheet =
        d.sheet.write (recordRows lay (.line margin false) margin (.line margin blank) r) :=
      sheet_clause lay d (.line margin blank) r
    rw [placeClauses, ih, hclause, recordScript, Sheet.write_append]

/-- **Clauses.** The head with its leading items, and the clauses below. -/
theorem shows_clauses (lay : Lay) (leading : Nat) (column : Int) {head : Item}
    (hhead : head.isComment = false) (items : List Item) :
    (clauses lay leading column head items).Shows .list
      (clausesPage lay leading column head items) := by
  have hitem : ((Draft.start (column + 1)).item lay true head).sheet =
      ((Sheet.start (column + 1)).write [⟨.none, settle lay (column + 1) head⟩]).hoist
        (leaving lay (column + 1) head) :=
    Draft.sheet_item_gather lay (Draft.start (column + 1)) .none head
  have hcolumn : ((Draft.start (column + 1)).item lay true head).column =
      (settle lay (column + 1) head).ending (column + 1) := by
    rw [Draft.column_eq, hitem]
    rfl
  obtain ⟨hsheet, hrest⟩ := sheet_placeLeading lay (column + 2) leading head.comment.isNone
    ((Draft.start (column + 1)).item lay true head) items _ fun _ => hcolumn
  simp only [clauses, clausesPage, item_trailing lay hhead, hrest]
  have hdraft := sheet_placeClauses lay (column + 2) false
    (placeLeading lay (column + 2) leading head.comment.isNone
      ((Draft.start (column + 1)).item lay true head) items).1
    (Record.ofItems (leadingLine lay (column + 2) leading head.comment.isNone
      ((settle lay (column + 1) head).ending (column + 1)) items).rest)
  simp only [hsheet, hitem, Sheet.line, Sheet.write_hoist, Sheet.hoist_hoist,
    ← Sheet.write_append] at hdraft
  obtain ⟨hchildren, hhoisted⟩ := Draft.children_of_sheet (p := ⟨_, _, column + 2⟩) hdraft
  exact ⟨congrArg Node.list hchildren, hhoisted⟩

end CljTidy.Layout
