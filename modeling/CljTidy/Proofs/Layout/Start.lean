/-
  Where items start.

  The column where an item starts is read off the text: it is the number of characters since the
  last line feed in front (`lineColumn`), for every item of a script that is written behind some
  text (`Script.starts`).  Behind a line break that number is the width of the indentation, and on
  the line of another item it is what the layout keeps count of (`lineColumn_append`); the two meet
  where items are put below the first argument of a call, whose column the layout has counted
  through the head.  For each way to make a page this gives the columns of its items
  (`starts_sequencePage`, `starts_pairsPage`, `starts_call`, `starts_form`), and `starts_layout`
  puts the pages into the text of a collection.
-/
import CljTidy.Proofs.Layout.Shaped

namespace CljTidy.Layout

/-! ## Columns in a text -/

/-- The column behind a text: the number of characters since its last line feed. -/
def lineColumn (text : String) : Nat := (text.toList.reverse.takeWhile (· ≠ '\n')).length

/-- **Columns are counted right.**  Counting on through a text from the column behind another one
    gives the column behind both. -/
theorem lineColumn_append (front text : String) :
    (lineColumn (front ++ text) : Int) = endColumn (lineColumn front) text := by
  have hstep : ∀ (cs : List Char) (c : Char),
      (((cs ++ [c]).reverse.takeWhile (· ≠ '\n')).length : Int) =
        if c = '\n' then 0 else ((cs.reverse.takeWhile (· ≠ '\n')).length : Int) + 1 := by
    intro cs c
    rw [List.reverse_append, List.reverse_singleton, List.singleton_append, List.takeWhile_cons]
    by_cases hc : c = '\n' <;> simp [hc]
  unfold lineColumn endColumn
  rw [String.toList_append]
  generalize front.toList = cs
  induction text.toList generalizing cs with
  | nil => rw [List.append_nil]; rfl
  | cons c text ih => rw [List.append_cons, ih, hstep, List.foldl_cons]

/-- Without a gap the column stays. -/
theorem lineColumn_none (front : String) :
    (lineColumn (front ++ Node.textAll Gap.none.nodes) : Int) = lineColumn front :=
  congrArg (fun text => (lineColumn text : Int)) String.append_empty

/-- Behind a space the column is one further. -/
theorem lineColumn_space (front : String) :
    (lineColumn (front ++ Node.textAll Gap.space.nodes) : Int) = lineColumn front + 1 := by
  rw [lineColumn_append]
  rfl

/-- Behind a line break the column is the one the line break goes to. -/
theorem lineColumn_line {column : Int} (hc : 0 ≤ column) (blank : Bool) (front : String) :
    (lineColumn (front ++ Node.textAll (Gap.line column blank).nodes) : Int) = column := by
  rw [lineColumn_append, endColumn_line hc]

/-! ## Items of a script -/

/-- The items of a script written behind a text, with the columns where they start. -/
def Script.starts (front : String) : Script → List (Item × Int)
  | [] => []
  | p :: s =>
      let before := front ++ Node.textAll p.gap.nodes
      (p.item, (lineColumn before : Int)) :: starts (before ++ Node.textAll p.item.written) s

/-- What is written second starts behind what is written first. -/
theorem Script.starts_append (front : String) (s t : Script) :
    Script.starts front (s ++ t) =
      Script.starts front s ++ Script.starts (front ++ Node.textAll s.nodes) t := by
  induction s generalizing front with
  | nil => simp [Script.starts, Node.textAll]
  | cons p s ih =>
    simp only [List.cons_append, Script.starts, ih, Script.nodes_cons, Placed.nodes,
      Node.textAll_append, String.append_assoc]

/-- Items behind line breaks to one column start there. -/
theorem starts_lines {column : Int} (hc : 0 ≤ column) {s : Script}
    (h : ∀ p ∈ s, ∃ blank, p.gap = .line column blank) (front : String) :
    s.starts front = s.items.map fun i => (i, column) := by
  induction s generalizing front with
  | nil => rfl
  | cons p s ih =>
    obtain ⟨⟨blank, hgap⟩, hrest⟩ := List.forall_mem_cons.mp h
    rw [Script.starts, hgap, lineColumn_line hc, ih hrest]
    rfl

/-- Every row stands behind a line break, if the first does. -/
theorem gap_rows {column : Int} {g : Gap} (hg : ∃ blank, g = .line column blank)
    (items : List Item) : ∀ p ∈ rows column g items, ∃ blank, p.gap = .line column blank := by
  induction items generalizing g with
  | nil => rintro p ⟨⟩
  | cons i items ih =>
    exact List.forall_mem_cons.mpr ⟨hg, ih ⟨false, rfl⟩⟩

/-- Rows start where the first of them does. -/
theorem starts_rows {column : Int} (hc : 0 ≤ column) {g : Gap} {front : String}
    (hg : (lineColumn (front ++ Node.textAll g.nodes) : Int) = column) (items : List Item) :
    (rows column g items).starts front = items.map fun i => (i, column) := by
  cases items with
  | nil => rfl
  | cons i items =>
    rw [rows, Script.starts, hg, starts_lines hc (gap_rows ⟨false, rfl⟩ items), items_rows]
    rfl

/-- The column behind rows is counted from where the last of them starts. -/
theorem lineColumn_rows {column : Int} (hc : 0 ≤ column) {g : Gap} {front : String}
    (hg : (lineColumn (front ++ Node.textAll g.nodes) : Int) = column) (items : List Item)
    (i : Item) :
    (lineColumn (front ++ Node.textAll (rows column g (items ++ [i])).nodes) : Int) =
      i.ending column := by
  induction items generalizing g front with
  | nil =>
    simp only [List.nil_append, rows, Script.nodes_cons, Script.nodes_nil, List.append_nil,
      Placed.nodes, Node.textAll_append]
    rw [← String.append_assoc, lineColumn_append, hg]
    rfl
  | cons j items ih =>
    simp only [List.cons_append, rows, Script.nodes_cons, Placed.nodes, Node.textAll_append]
    rw [← String.append_assoc, ih (lineColumn_line hc false _)]

/-! ## Records -/

/-- The items of a record with the columns where they start: the value goes on behind its key, and
    everything else starts a line. -/
def recordStarts (lay : Lay) (column : Int) : Record → List (Item × Int)
  | .comment text => [(.ofComment text, column)]
  | .orphan i => (settled lay column i).map fun i => (i, column)
  | .pair key value =>
      let k := settle lay column key
      let behind := k.ending column + 1
      let above := (leaving lay column key ++ leaving lay behind value).map Item.ofComment
      (above ++ [k]).map (fun i => (i, column)) ++ [(settle lay behind value, behind)]

/-- A record starts where its first item does: a key on its line, then what follows the key. -/
theorem starts_recordRows {lay : Lay} {column : Int} (hc : 0 ≤ column) {g : Gap} {front : String}
    (hg : (lineColumn (front ++ Node.textAll g.nodes) : Int) = column) (r : Record) :
    (recordRows lay .space column g r).starts front = recordStarts lay column r := by
  cases r with
  | comment text =>
    simp only [recordRows, Script.starts, hg]
    rfl
  | orphan i => exact starts_rows hc hg _
  | pair key value =>
    simp only [recordRows, Script.starts_append, starts_rows hc hg, Script.starts,
      lineColumn_space, lineColumn_rows hc hg]
    rfl

/-- So do records below each other. -/
theorem starts_recordScript {lay : Lay} {column : Int} (hc : 0 ≤ column) {g : Gap}
    {front : String} (hg : (lineColumn (front ++ Node.textAll g.nodes) : Int) = column)
    (records : List Record) :
    (recordScript lay .space column (fun _ => .line column false) g records).starts front =
      records.flatMap (recordStarts lay column) := by
  induction records generalizing g front with
  | nil => rfl
  | cons r records ih =>
    rw [recordScript, Script.starts_append, starts_recordRows hc hg,
      ih (lineColumn_line hc false _)]
    rfl

/-- On a page of items they all start at its margin. -/
theorem starts_sequencePage (lay : Lay) {align : Int} (halign : 0 ≤ align) {front : String}
    (hfront : (lineColumn front : Int) = align) (items : List Item) :
    (sequencePage lay align items).script.starts front =
      (items.flatMap (settled lay align)).map fun i => (i, align) :=
  starts_rows halign ((lineColumn_none front).trans hfront) _

/-- On a page of pairs each record starts at its margin. -/
theorem starts_pairsPage (lay : Lay) {align : Int} (halign : 0 ≤ align) {front : String}
    (hfront : (lineColumn front : Int) = align) (items : List Item) :
    (pairsPage lay align items).script.starts front =
      (Record.ofItems items).flatMap (recordStarts lay align) :=
  starts_recordScript halign ((lineColumn_none front).trans hfront) _

/-! ## Lines behind a head -/

/-- Arguments stand behind a space each. -/
theorem gap_argumentLine (lay : Lay) (hoist : Bool) (n : Nat) (column : Int) (items : List Item) :
    ∀ p ∈ (argumentLine lay hoist n column items).script, p.gap = .space := by
  fun_induction argumentLine lay hoist n column items with
  | case1 => rintro p ⟨⟩
  | case2 => rintro p ⟨⟩
  | case3 n column i items hi hh ih => exact ih
  | case4 => rintro p ⟨⟩
  | case5 n column i items hi j comments hcomment ih => exact List.forall_mem_cons.mpr ⟨rfl, ih⟩
  | case6 n column i items hi j comments text hcomment hn ih =>
    exact List.forall_mem_cons.mpr ⟨rfl, ih⟩
  | case7 n column i items hi comments text hcomment hn =>
    exact List.forall_mem_cons.mpr ⟨rfl, by rintro p ⟨⟩⟩

/-- Nothing on the line of a head stands behind a line break. -/
theorem gap_headLine (lay argumentLay : Lay) (style : CallStyle) (column : Int) (head : Item)
    (items : List Item) :
    ∀ p ∈ (headLine lay argumentLay style column head items).script,
      p.gap = .none ∨ p.gap = .space := by
  have harguments := gap_argumentLine argumentLay style.hoist style.arguments
    ((settle lay (column + 1) head.bare).ending (column + 1)) items
  unfold headLine
  repeat' split
  · exact List.forall_mem_cons.mpr ⟨.inl rfl, fun p hp => .inr (harguments p hp)⟩
  · exact List.forall_mem_cons.mpr ⟨.inl rfl, fun p hp => .inr (harguments p hp)⟩
  · exact List.forall_mem_cons.mpr ⟨.inl rfl, by rintro p ⟨⟩⟩

/-- Leading items go on behind each other until one of them starts a line; then all do. -/
theorem gap_leadingLine (lay : Lay) (margin : Int) (n : Nat) (inline : Bool) (column : Int)
    (items : List Item) :
    ∃ line below, (leadingLine lay margin n inline column items).script = line ++ below ∧
      (inline = false → line = []) ∧ (∀ p ∈ line, p.gap = .space) ∧
      ∀ p ∈ below, ∃ blank, p.gap = .line margin blank := by
  fun_induction leadingLine lay margin n inline column items with
  | case1 => exact ⟨[], [], rfl, fun _ => rfl, by rintro p ⟨⟩, by rintro p ⟨⟩⟩
  | case2 => exact ⟨[], [], rfl, fun _ => rfl, by rintro p ⟨⟩, by rintro p ⟨⟩⟩
  | case3 n inline column i items hi ih =>
    obtain ⟨line, below, hscript, hline, -, hbelow⟩ := ih
    obtain rfl := hline rfl
    refine ⟨[], _ :: below, congrArg (_ :: ·) hscript, fun _ => rfl, by rintro p ⟨⟩, ?_⟩
    exact List.forall_mem_cons.mpr ⟨⟨false, rfl⟩, hbelow⟩
  | case4 n column i items hi j ih =>
    obtain ⟨line, below, hscript, -, hline, hbelow⟩ := ih
    refine ⟨⟨.space, j⟩ :: line, below, congrArg (_ :: ·) hscript, by rintro ⟨⟩, ?_, hbelow⟩
    exact List.forall_mem_cons.mpr ⟨rfl, hline⟩
  | case5 n inline column i items hi hinline ih =>
    obtain ⟨line, below, hscript, hline, -, hbelow⟩ := ih
    obtain rfl := hline rfl
    refine ⟨[], _ ++ below, congrArg (_ ++ ·) hscript, fun _ => rfl, by rintro p ⟨⟩, ?_⟩
    exact List.forall_mem_append.mpr ⟨gap_rows ⟨false, rfl⟩ _, hbelow⟩

/-- If values go below their keys, every item of a record stands behind a line break. -/
theorem gap_recordScript (lay : Lay) (column : Int) (next : Record → Gap)
    (hnext : ∀ r, ∃ blank, next r = .line column blank) {g : Gap}
    (hg : ∃ blank, g = .line column blank) (records : List Record) :
    ∀ p ∈ recordScript lay (.line column false) column next g records,
      ∃ blank, p.gap = .line column blank := by
  induction records generalizing g with
  | nil => rintro p ⟨⟩
  | cons r records ih =>
    refine List.forall_mem_append.mpr ⟨?_, ih (hnext r)⟩
    cases r with
    | comment text => exact List.forall_mem_cons.mpr ⟨hg, by rintro p ⟨⟩⟩
    | orphan i => exact gap_rows hg _
    | pair key value =>
      refine List.forall_mem_append.mpr ⟨gap_rows hg _, ?_⟩
      exact List.forall_mem_cons.mpr ⟨⟨false, rfl⟩, by rintro p ⟨⟩⟩

/-! ## Calls -/

/-- The items of a call with one argument on its line: the head behind the bracket, and behind the
    comments that leave either nothing, or an argument and whatever follows below it. -/
def CallStarts (lay : Lay) (column : Int) (head : Item) (rest : List Item)
    (starts : List (Item × Int)) : Prop :=
  let start := (settle lay (column + 1) head.bare, column + 1)
  (∀ i ∈ rest, i.isComment = true) ∧ starts = [start] ∨
    ∃ comments argument later m, rest = comments ++ argument :: later ∧
      (∀ i ∈ comments, i.isComment = true) ∧ argument.isComment = false ∧
      starts = start :: (settle lay m argument, m) ::
        (later.flatMap (settled lay m)).map fun i => (i, m)

/-- One argument goes onto the line, if there is any. -/
theorem argumentLine_one (lay : Lay) (column : Int) (items : List Item) :
    let line := argumentLine lay true 1 column items
    (∀ i ∈ items, i.isComment = true) ∧ line.script = [] ∧ line.rest = [] ∨
      ∃ comments argument later, items = comments ++ argument :: later ∧
        (∀ i ∈ comments, i.isComment = true) ∧ argument.isComment = false ∧
        line.script = [⟨.space, settle lay (column + 1) argument⟩] ∧ line.rest = later := by
  induction items with
  | nil => exact .inl ⟨by rintro i ⟨⟩, rfl, rfl⟩
  | cons i items ih =>
    cases hi : i.isComment with
    | true =>
      rw [argumentLine, if_pos hi, if_pos rfl]
      rcases ih with ⟨hall, hscript, hrest⟩ | ⟨comments, argument, later, rfl, hcomments, h⟩
      · exact .inl ⟨List.forall_mem_cons.mpr ⟨hi, hall⟩, hscript, hrest⟩
      · refine .inr ⟨i :: comments, argument, later, rfl, ?_, h⟩
        exact List.forall_mem_cons.mpr ⟨hi, hcomments⟩
    | false =>
      refine .inr ⟨[], i, items, rfl, by rintro i ⟨⟩, hi, ?_⟩
      rw [argumentLine, if_neg (Bool.eq_false_iff.mp hi)]
      cases hcomment : i.comment with
      | none =>
        simp only [argumentLine, Line.after, Item.bare_eq hcomment, List.append_nil, and_self]
      | some text => simp

/-- What follows the first argument starts where the first argument does. -/
theorem starts_call {lay : Lay} {column : Int} (hc : 0 ≤ column) {front : String}
    (hfront : (lineColumn front : Int) = column + 1) (head : Item) (rest : List Item) :
    CallStarts lay column head rest
      ((callPage lay lay lay { arguments := 1 } column head rest).script.starts front) := by
  have hstyle : ({ arguments := 1 } : CallStyle).hoist = true := rfl
  simp only [callPage, headLine_hoist lay lay hstyle, Line.after, List.singleton_append,
    Option.getD_none]
  have hone := argumentLine_one lay ((settle lay (column + 1) head.bare).ending (column + 1)) rest
  have hnone : front ++ Node.textAll Gap.none.nodes = front := String.append_empty
  -- The first argument stands one space behind the head.
  obtain ⟨m, hm⟩ : ∃ m : Int, (settle lay (column + 1) head.bare).ending (column + 1) + 1 = m :=
    ⟨_, rfl⟩
  have hpos : 0 ≤ m := by
    have hend := le_ending (Int.le_refl 0) (show 0 ≤ column + 1 by omega)
      (settle lay (column + 1) head.bare)
    omega
  have hbehind : (lineColumn (front ++ Node.textAll (settle lay (column + 1) head.bare).written ++
      Node.textAll Gap.space.nodes) : Int) = m := by
    rw [lineColumn_space, lineColumn_append, hfront, ← hm]
    rfl
  rcases hone with ⟨hall, hline, hnil⟩ |
    ⟨comments, argument, later, hitems, hcomments, hargument, hline, hlater⟩
  · refine .inl ⟨hall, ?_⟩
    simp only [hline, hnil, List.flatMap_nil, rows, List.append_nil, Script.starts, hnone, hfront]
  · refine .inr ⟨comments, argument, later, m, hitems, hcomments, hargument, ?_⟩
    rw [hm] at hline
    have hfirst : firstColumn column (⟨.none, settle lay (column + 1) head.bare⟩ ::
        [⟨.space, settle lay m argument⟩]) = m := hm
    simp only [hline, hlater, hfirst, List.cons_append, List.nil_append, Script.starts, hnone,
      hfront, hbehind, starts_lines hpos (gap_rows ⟨false, rfl⟩ _), items_rows]

/-! ## Indented bodies -/

/-- How far what is below the head line is indented. -/
def Form.bodyIndent : Form → Option Int
  | .call _ _ _ indent _ => indent
  | .clauses _ => some 2

/-- The rules that indent what is below the head line by two, whatever the items are. -/
def Rule.indentsBody : Rule → Bool
  | .indented _ _ => true
  | .method => true
  | .clauses _ => true
  | _ => false

/-- A rule that indents bodies prescribes such a form whatever the items are. -/
theorem Rule.bodyIndent_form {rule : Rule} (h : rule.indentsBody = true) (items : List Item) :
    ∃ form, rule.form? items = some form ∧ form.bodyIndent = some 2 := by
  cases rule with
  | indented arguments hoist => exact ⟨_, rfl, rfl⟩
  | method =>
    refine ⟨methodForm items, rfl, ?_⟩
    unfold methodForm
    repeat' split
    all_goals rfl
  | clauses leading => exact ⟨_, rfl, rfl⟩
  | _ => cases h

/-- The script of a form is its head line, and lines at the indented column. -/
theorem script_form {form : Form} {d : Int} (hform : form.bodyIndent = some d) (lay : Lay)
    (column : Int) (head : Item) (items : List Item) :
    ∃ line below, (form.page lay column head items).script = line ++ below ∧
      (∀ p ∈ line, p.gap = .none ∨ p.gap = .space) ∧
      ∀ p ∈ below, ∃ blank, p.gap = .line (column + d) blank := by
  cases form with
  | call argument body arguments indent hoist =>
    obtain rfl : indent = some d := hform
    exact ⟨_, _, rfl, gap_headLine _ _ _ _ _ _, gap_rows ⟨false, rfl⟩ _⟩
  | clauses leading =>
    obtain rfl : (2 : Int) = d := Option.some.inj hform
    obtain ⟨line, below, hscript, -, hline, hbelow⟩ := gap_leadingLine lay (column + 2) leading
      head.comment.isNone ((settle lay (column + 1) head).ending (column + 1)) items
    have hclauses := gap_recordScript lay (column + 2) (fun r => .line (column + 2) !r.isComment)
      (fun r => ⟨_, rfl⟩) ⟨false, rfl⟩
      (Record.ofItems (leadingLine lay (column + 2) leading head.comment.isNone
        ((settle lay (column + 1) head).ending (column + 1)) items).rest)
    refine ⟨⟨.none, settle lay (column + 1) head⟩ :: line, below ++ _, ?_, ?_,
      List.forall_mem_append.mpr ⟨hbelow, hclauses⟩⟩
    · simp only [Form.page, clausesPage, hscript, List.cons_append, List.append_assoc]
    · exact List.forall_mem_cons.mpr ⟨.inl rfl, fun p hp => .inr (hline p hp)⟩

/-- Behind its head line, a script has every item at the column. -/
def BodyStarts (column : Int) (script : Script) (starts : List (Item × Int)) : Prop :=
  ∃ line below, script = line ++ below ∧ (∀ p ∈ line, p.gap = .none ∨ p.gap = .space) ∧
    starts.drop line.length = below.items.map fun i => (i, column)

theorem Script.length_starts (front : String) (s : Script) :
    (s.starts front).length = s.length := by
  induction s generalizing front with
  | nil => rfl
  | cons p s ih => rw [Script.starts, List.length_cons, ih, List.length_cons]

/-- Behind the head line of such a form every item starts at the indented column, counted from
    where the form starts. -/
theorem starts_form {form : Form} {d : Int} (hform : form.bodyIndent = some d) (lay : Lay)
    {column : Int} (hcolumn : 0 ≤ column + d) (front : String) (head : Item) (items : List Item) :
    let script := (form.page lay column head items).script
    BodyStarts (column + d) script (script.starts front) := by
  obtain ⟨line, below, hscript, hline, hbelow⟩ := script_form hform lay column head items
  refine ⟨line, below, hscript, hline, ?_⟩
  rw [hscript, Script.starts_append, List.drop_left' (Script.length_starts front line),
    starts_lines hcolumn hbelow]

/-! ## Collections -/

/-- Written behind `front`, the result is `lead` and a page between its brackets, and the items on
    the page start at the given columns. -/
structure Rendered.Prints (r : Rendered) (front lead : String) (b : Bracket) (p : Page)
    (starts : List (Item × Int)) : Prop where
  written : r.node.written? =
    some (lead ++ b.opening ++ Node.textAll p.children ++ b.closing)
  starts : p.script.starts (front ++ lead ++ b.opening) = starts

section

variable {table : Table} {b : Bracket} {cs : List Node} {column : Int} {page : Page}

/-- A collection of the shape that reading builds is written if it shows a page. -/
theorem prints_collection (hshape : (Node.branch b cs).lacks Node.misshapen = true)
    (hnode : (layout table column (.branch b cs)).node = .branch b page.children)
    (front : String) :
    (layout table column (.branch b cs)).Prints front "" b page
      (page.script.starts (front ++ b.opening)) := by
  refine ⟨?_, by rw [String.append_empty]⟩
  rw [Node.written?, if_pos (isKnown_layout hshape table column), hnode, Node.text,
    String.empty_append]

/-- The list of a reader conditional is written as pairs behind the mark. -/
theorem prints_conditional (table : Table) (hshape : (Node.list cs).lacks Node.misshapen = true)
    (splicing : Bool) {align : Int} (front : String)
    (halign : align = column + (Mark.conditional splicing).width + Bracket.list.width) :
    let mark := Mark.conditional splicing
    let page := pairsPage (layout table) align (Item.group cs)
    (layout table column (.wrap mark (.list cs))).Prints front mark.spelling .list page
      (page.script.starts (front ++ mark.spelling ++ Bracket.list.opening)) := by
  intro mark page
  subst halign
  have hnode : (layout table column (.wrap mark (.list cs))).node =
      .wrap mark (.list page.children) := by
    have hwrap : layout table column (.wrap mark (.list cs)) = _ := lay_wrap .plain column mark _
    rw [hwrap]
    exact congrArg (Node.wrap mark) (shows_pairs (layout table) (column + mark.width) .list cs).node
  have hwrapped : (Node.wrap mark (.list cs)).lacks Node.misshapen = true :=
    Node.lacks_wrap.mpr ⟨rfl, hshape⟩
  refine ⟨?_, rfl⟩
  rw [Node.written?, if_pos (isKnown_layout hwrapped table column), hnode, Node.text, Node.text]
  simp only [String.append_assoc]

/-- A list with a head has the children its form prescribes. -/
theorem node_headed {leading rest : List Item} {head : Item} {form : Form}
    (hsplit : Item.splitHead (Item.group cs) = (leading, some head, rest))
    (hform : headForm? table head rest = some form) :
    (layout table column (.list cs)).node =
      .list (form.page (layout table) column head rest).children := by
  have hlist : listForm? table (Item.group cs) = some form := by
    rw [listForm?, hsplit]
    exact hform
  have hshows : (layout table column (.list cs)).Shows .list _ :=
    shows_plain (b := .list) rfl (congrArg (Option.map Plan.headed) hlist) column
  rw [hshows.node, Plan.page, hsplit]
  rfl

end

/-- Behind an opening bracket the column has moved by the width of the bracket. -/
theorem lineColumn_opening (front : String) (b : Bracket) :
    (lineColumn (front ++ b.opening) : Int) = lineColumn front + b.width := by
  rw [lineColumn_append]
  cases b <;> rfl

/-- So it has behind the mark of a reader conditional. -/
theorem lineColumn_conditional (front : String) (splicing : Bool) :
    (lineColumn (front ++ (Mark.conditional splicing).spelling) : Int) =
      lineColumn front + (Mark.conditional splicing).width := by
  rw [lineColumn_append]
  cases splicing <;> rfl

/-- **Items start where they are meant to.**  Write a collection at the column behind `front`.  In a
    vector or a set, every item and every comment that leaves one starts behind the opening bracket,
    whatever line it is on; so do records in a map, and in the list of a reader conditional.  In a
    list with an ordinary head, everything behind the first argument starts where the first argument
    does.  In a list with a rule that indents its body, everything below the head line starts two
    columns behind the list. -/
theorem starts_layout (table : Table) {b : Bracket} {cs : List Node}
    (hshape : (Node.branch b cs).lacks Node.misshapen = true) (front : String) :
    let lay := layout table
    let items := Item.group cs
    let column : Int := lineColumn front
    let align := column + b.width
    (b = .vector ∨ b = .set →
      (lay column (.branch b cs)).Prints front "" b (sequencePage lay align items)
        ((items.flatMap (settled lay align)).map fun i => (i, align))) ∧
    (b = .map →
      (lay column (.branch b cs)).Prints front "" b (pairsPage lay align items)
        ((Record.ofItems items).flatMap (recordStarts lay align))) ∧
    (b = .list → ∀ splicing,
      let mark := Mark.conditional splicing
      let align : Int := lineColumn (front ++ mark.spelling) + b.width
      (lay column (.wrap mark (.branch b cs))).Prints front mark.spelling b
        (pairsPage lay align items) ((Record.ofItems items).flatMap (recordStarts lay align))) ∧
    (b = .list → ∀ leading head rest, Item.splitHead items = (leading, some head, rest) →
      (table.ruleFor? head = none →
        ∃ starts, (lay column (.branch b cs)).Prints front "" b
            (callPage lay lay lay { arguments := 1 } column head rest) starts ∧
          CallStarts lay column head rest starts) ∧
      ∀ rule, table.ruleFor? head = some rule → rule.indentsBody = true →
        ∃ form starts, rule.form? rest = some form ∧
          (lay column (.branch b cs)).Prints front "" b (form.page lay column head rest) starts ∧
          BodyStarts (column + 2) (form.page lay column head rest).script starts) := by
  intro lay items column align
  have hcolumn : (0 : Int) ≤ column := Int.natCast_nonneg _
  have hopening : (lineColumn (front ++ b.opening) : Int) = align := lineColumn_opening front b
  have halign : 0 ≤ align := by omega
  refine ⟨?_, ?_, ?_, ?_⟩
  · -- Vectors and sets: a page of items, behind the bracket.
    intro hb
    have hshows : (lay column (.branch b cs)).Shows b (Plan.sequence.page lay column b items) := by
      rcases hb with rfl | rfl <;> exact shows_plain rfl rfl column
    rw [← starts_sequencePage lay halign hopening]
    exact prints_collection hshape hshows.node front
  · -- Maps: a page of pairs there.
    rintro rfl
    have hshows : (lay column (.branch .map cs)).Shows .map
        (Plan.pairs.page lay column .map items) := shows_plain rfl rfl column
    rw [← starts_pairsPage lay halign hopening]
    exact prints_collection hshape hshows.node front
  · -- The list of a reader conditional stands behind the mark, so it starts further right.
    rintro rfl splicing mark align'
    have hmark : align' = column + mark.width + Bracket.list.width :=
      congrArg (· + (Bracket.list.width : Int)) (lineColumn_conditional front splicing)
    have hopening' : (lineColumn (front ++ mark.spelling ++ Bracket.list.opening) : Int) = align' :=
      lineColumn_opening _ _
    rw [← starts_pairsPage lay (by omega) hopening']
    exact prints_conditional table hshape splicing front hmark
  · rintro rfl leading head rest hsplit
    refine ⟨fun hrule => ?_, fun rule hrule hbody => ?_⟩
    · -- No rule for the head: an ordinary call.
      have hform : headForm? table head rest = some .ordinary := by rw [headForm?, hrule]
      exact ⟨_, prints_collection hshape (node_headed hsplit hform) front,
        starts_call hcolumn hopening head rest⟩
    · -- A rule that indents: its form does, whatever is behind the head.
      obtain ⟨form, hform, hindent⟩ := Rule.bodyIndent_form hbody rest
      have hheaded : headForm? table head rest = some form := by rw [headForm?, hrule]; exact hform
      exact ⟨form, _, hform, prints_collection hshape (node_headed hsplit hheaded) front,
        starts_form hindent lay (by omega) _ head rest⟩

/-- Behind a head of two lines; in a set with such an item; and below the head line of clauses. -/
theorem starts_layout_lines :
    let lay := layout .standard
    let lines : Item := ⟨.atom "\"a\nb\"", none, none⟩
    let item : String → Item := fun text => ⟨.atom text, none, none⟩
    let cs : List Node := [.atom "\"a\nb\"", .atom "x", .atom "y"]
    (Node.list cs).lacks Node.misshapen = true ∧
    (∃ starts, (lay 2 (.list cs)).Prints "  " "" .list
        (callPage lay lay lay { arguments := 1 } 2 lines [item "x", item "y"]) starts ∧
      CallStarts lay 2 lines [item "x", item "y"] starts) ∧
    (lay 2 (.set cs)).Prints "  " "" .set (sequencePage lay 4 [lines, item "x", item "y"])
      [(lines, 4), (item "x", 4), (item "y", 4)] ∧
    ∃ form starts, Rule.form? [lines, item "x", item "y"] (.clauses 1) = some form ∧
      (lay 2 (.list (.atom "case" :: cs))).Prints "  " "" .list
        (form.page lay 2 (item "case") [lines, item "x", item "y"]) starts ∧
      BodyStarts 4 (form.page lay 2 (item "case") [lines, item "x", item "y"]).script
        starts := by
  intro lay lines item cs
  refine ⟨by decide, ?_, ?_, ?_⟩
  · exact ((starts_layout .standard (by decide) "  ").2.2.2 rfl _ _ _ rfl).1 (by decide)
  · exact (starts_layout .standard (by decide) "  ").1 (.inr rfl)
  · exact ((starts_layout .standard (by decide) "  ").2.2.2 rfl _ _ _ rfl).2 _ (by decide) rfl

end CljTidy.Layout
