/-
  Pages in print.

  The print of a node is its text, with the knowledge whether it is a comment; that is all a page
  needs to know about what its items come out as.  So where a change inside the elements leaves
  their print as it is (`Unmoved`), it leaves the print of the page as it is: for each way to make a
  page (`print_rows` to `print_callPage`), and for the page of a plan (`print_page`).
-/
import CljTidy.Proofs.Item.Inward
import CljTidy.Proofs.Layout.Plan

namespace CljTidy

/-! ## Prints -/

/-- The node as a reader of the text sees it. -/
def Node.print (n : Node) : Node := if n.isComment then n else .atom n.text

/-- Print keeps the text, and whether it is a comment. -/
@[simp] theorem Node.text_print (n : Node) : n.print.text = n.text := by
  unfold Node.print
  split <;> rfl

@[simp] theorem Node.isComment_print (n : Node) : n.print.isComment = n.isComment := by
  unfold Node.print
  cases h : n.isComment with
  | true => rw [if_pos rfl, h]
  | false => rfl

/-- The print of a node that is no comment is its text. -/
theorem Node.print_of_text {m n : Node} (hm : m.isComment = false) (hn : n.isComment = false)
    (h : m.text = n.text) : m.print = n.print := by
  rw [Node.print, Node.print, hm, hn, h]
  rfl

namespace Item

/-- The item with its element in print. -/
def print (i : Item) : Item := i.onto Node.print

/-- An item in print is a comment if the item is one, -/
@[simp] theorem isComment_print (i : Item) : i.print.isComment = i.isComment :=
  Node.isComment_print i.element

/-- and nothing may follow it on its line if nothing may follow the item. -/
@[simp] theorem closesLine_print (i : Item) : i.print.closesLine = i.closesLine := by
  rw [closesLine, isComment_print]
  rfl

/-- An item in print is written like the item, its marker and its own comment included. -/
theorem text_print (i : Item) : Node.textAll i.print.written = Node.textAll i.written := by
  have hinline : Node.textAll i.print.inlineNodes = Node.textAll i.inlineNodes := by
    simp only [inlineNodes, Node.textAll_append, Node.textAll, print, onto, Node.text_print]
  rw [written, written, Node.textAll_append, Node.textAll_append, hinline]
  rfl

/-- So it ends at the same column. -/
@[simp] theorem ending_print (i : Item) (column : Int) : i.print.ending column = i.ending column :=
  congrArg (Layout.endColumn column) (text_print i)

/-- Items of one print end at one column. -/
theorem ending_of_print {i j : Item} (h : i.print = j.print) (column : Int) :
    i.ending column = j.ending column := by
  rw [← ending_print, h, ending_print]

end Item

namespace Layout

namespace Script

/-- The script with its items in print. -/
def print (s : Script) : Script := s.map fun p => ⟨p.gap, p.item.print⟩

@[simp] theorem print_nil : print [] = [] := rfl

@[simp] theorem print_cons (p : Placed) (s : Script) :
    print (p :: s) = ⟨p.gap, p.item.print⟩ :: print s := rfl

/-- Print goes entry by entry. -/
@[simp] theorem print_append (s t : Script) : print (s ++ t) = print s ++ print t := by
  simp [print]

/-- A script in print is written like the script, -/
theorem text_print (s : Script) : Node.textAll (nodes (print s)) = Node.textAll (nodes s) := by
  induction s with
  | nil => rfl
  | cons p s ih =>
    simp only [print_cons, nodes_cons, Placed.nodes, Node.textAll_append, Item.text_print, ih]

/-- and a comment stands last in both or in neither. -/
@[simp] theorem closesLine_print (s : Script) : closesLine (print s) = closesLine s := by
  simp only [closesLine, print, List.getLast?_map]
  cases s.getLast? <;> simp

end Script

/-- Rows of items in print are rows of the same gaps. -/
@[simp] theorem print_rows (column : Int) (g : Gap) (items : List Item) :
    (rows column g items).print = rows column g (items.map Item.print) := by
  induction items generalizing g with
  | nil => rfl
  | cons i items ih => simp [rows, ih]

/-- The page with its items in print. -/
def Page.print (p : Page) : Page := { p with script := p.script.print }

/-- A page reads like its print. -/
theorem Page.text_print (p : Page) :
    Node.textAll p.print.children = Node.textAll p.children := by
  simp only [Page.children, Page.print, Node.textAll_append, Script.text_print,
    Script.closesLine_print]

/-- Two results read the same, and the same comments leave them. -/
structure Rendered.Alike (r s : Rendered) : Prop where
  node : r.node.print = s.node.print
  hoisted : r.hoisted = s.hoisted

/-! ## Items -/

/-- The change of the element does not change how it comes out. -/
def Unmoved (f : Node → Node) (lay : Lay) (i : Item) : Prop :=
  i.isComment = false → ∀ column, (lay column (f i.element)).Alike (lay column i.element)

section

variable {f : Node → Node} (hf : SparesComments f) {lay : Lay} {i : Item} (h : Unmoved f lay i)
  (column : Int)

include hf h

/-- A change that does not show leaves the print of a settled item. -/
theorem print_settle : (settle lay column (i.onto f)).print = (settle lay column i).print := by
  cases hi : i.isComment with
  | true => rw [hf.onto_comment hi]
  | false =>
    have hnode := (h hi (column + Draft.markerWidth i.marker)).node
    simp only [settle, hf.isComment_onto, hi]
    exact congrArg (Item.mk · i.marker (i.comment.map Comment.tidy)) hnode

/-- Nor does it change which comments leave the item, -/
theorem leaving_onto : leaving lay column (i.onto f) = leaving lay column i := by
  cases hi : i.isComment with
  | true => rw [hf.onto_comment hi]
  | false =>
    simp only [leaving, hf.isComment_onto, hi]
    exact (h hi (column + Draft.markerWidth i.marker)).hoisted

/-- so the item with these comments in front has the same print, -/
theorem print_settled :
    (settled lay column (i.onto f)).map Item.print = (settled lay column i).map Item.print := by
  simp only [settled, leaving_onto hf h, List.map_append, List.map_cons, List.map_nil,
    print_settle hf h]

/-- and what follows it starts at the same column. -/
theorem ending_settle (start : Int) :
    (settle lay column (i.onto f)).ending start = (settle lay column i).ending start :=
  Item.ending_of_print (print_settle hf h column) start

end

section

variable {f : Node → Node} (hf : SparesComments f) {lay : Lay}

include hf

/-- The same for items in a row, each settled at one column. -/
theorem print_settledAll {items : List Item} (h : ∀ i ∈ items, Unmoved f lay i) (column : Int) :
    ((items.map (Item.onto f)).flatMap (settled lay column)).map Item.print =
      (items.flatMap (settled lay column)).map Item.print := by
  rw [List.map_flatMap, List.map_flatMap, List.flatMap_map]
  refine congrArg List.flatten (List.map_congr_left fun i hi => ?_)
  exact print_settled hf (h i hi) column

/-! ## Sequences and pairs -/

/-- A row for each item. -/
theorem print_sequencePage {items : List Item} (h : ∀ i ∈ items, Unmoved f lay i) (column : Int) :
    (sequencePage lay column (items.map (Item.onto f))).print =
      (sequencePage lay column items).print := by
  simp only [sequencePage, Page.print, print_rows, print_settledAll hf h]

/-- A record is a comment, an orphan, or a key and a value, where the column of the value is told
    by the print of the key. -/
theorem print_recordRows {r : Record} (h : ∀ i ∈ r.items, Unmoved f lay i) (mid : Gap)
    (column : Int) (g : Gap) :
    (recordRows lay mid column g (r.onto f)).print = (recordRows lay mid column g r).print := by
  cases r with
  | comment text => rfl
  | orphan i =>
    have hi := h i (List.mem_singleton.mpr rfl)
    simp only [Record.onto, recordRows, print_rows, print_settled hf hi]
  | pair key value =>
    have hkey := h key (by simp [Record.items])
    have hvalue := h value (by simp [Record.items])
    simp only [Record.onto, recordRows, Script.print_append, Script.print_cons, Script.print_nil,
      print_rows, List.map_append, List.map_cons, List.map_nil, leaving_onto hf hkey,
      leaving_onto hf hvalue, ending_settle hf hkey, print_settle hf hkey, print_settle hf hvalue]

/-- Records in a row: the gap between two of them depends on what kinds they are, which does not
    change. -/
theorem print_recordScript {records : List Record}
    (h : ∀ i ∈ Record.itemsAll records, Unmoved f lay i) (mid : Gap) (column : Int)
    (next : Record → Gap) (hnext : ∀ r : Record, next (r.onto f) = next r) (g : Gap) :
    (recordScript lay mid column next g (records.map (Record.onto f))).print =
      (recordScript lay mid column next g records).print := by
  induction records generalizing g with
  | nil => rfl
  | cons r records ih =>
    rw [Record.itemsAll_cons] at h
    obtain ⟨hr, hrest⟩ := List.forall_mem_append.mp h
    simp only [List.map_cons, recordScript, Script.print_append, print_recordRows hf hr, hnext,
      ih hrest]

omit hf in
/-- Pairing moves comments about and leaves the elements as they are. -/
theorem unmoved_ofItems {items : List Item} (h : ∀ i ∈ items, Unmoved f lay i) :
    ∀ i ∈ Record.itemsAll (Record.ofItems items), Unmoved f lay i :=
  Record.forall_ofItems (fun _ _ hi => hi) (by rintro _ _ _ _ ⟨⟩) h

omit hf in
/-- A row for each pair.  Pairing is asked only for what `f` leaves alone, so it pairs the changed
    items alike. -/
theorem print_pairsPage (hf : Inward f) {items : List Item} (h : ∀ i ∈ items, Unmoved f lay i)
    (column : Int) :
    (pairsPage lay column (items.map (Item.onto f))).print = (pairsPage lay column items).print := by
  have hrecords := print_recordScript hf.spares (unmoved_ofItems h) .space column
    (fun _ => .line column false) (fun _ => rfl) .none
  simp only [pairsPage, Page.print, hf.ofItems, hrecords]

/-! ## Lines -/

end

/-- Two lines read the same, and what is still to be written was changed. -/
structure Line.Alike (f : Node → Node) (l m : Line) : Prop where
  script : l.script.print = m.script.print
  leaving : l.leaving = m.leaving
  rest : l.rest = m.rest.map (Item.onto f)

/-- More on the line in front. -/
theorem Line.Alike.after {f : Node → Node} {l m : Line} (h : l.Alike f m) {s t : Script}
    (hs : s.print = t.print) (comments : List String) :
    (l.after s comments).Alike f (m.after t comments) := by
  refine ⟨?_, congrArg (comments ++ ·) h.leaving, h.rest⟩
  simp only [Line.after, Script.print_append, hs, h.script]

section

variable {f : Node → Node} (hf : SparesComments f) {lay : Lay}

include hf

/-- One item in print. -/
theorem print_placed {i : Item} (h : Unmoved f lay i) (g : Gap) (column : Int) :
    Script.print [⟨g, settle lay column (i.onto f)⟩] = Script.print [⟨g, settle lay column i⟩] :=
  congrArg (fun j => [Placed.mk g j]) (print_settle hf h column)

/-- The arguments on the line of a call.  Whether one more goes onto it depends on its own comment
    and on whether any element is left, and `f` changes neither. -/
theorem alike_argumentLine (hoist : Bool) (n : Nat) (column : Int) {items : List Item}
    (h : ∀ i ∈ items, Unmoved f lay i) :
    (argumentLine lay hoist n column (items.map (Item.onto f))).Alike f
      (argumentLine lay hoist n column items) := by
  have helements : ∀ items : List Item,
      (Item.elements (items.map (Item.onto f))).isEmpty = (Item.elements items).isEmpty := by
    intro items
    rw [hf.elements, List.isEmpty_map]
  have hbare : ∀ i : Item, (i.onto f).bare = i.bare.onto f := fun _ => rfl
  have hcomment : ∀ i : Item, (i.onto f).comment = i.comment := fun _ => rfl
  fun_induction argumentLine lay hoist n column items with
  | case1 column items =>
    rw [argumentLine]
    exact ⟨rfl, rfl, rfl⟩
  | case2 n column =>
    rw [List.map_nil, argumentLine]
    · exact ⟨rfl, rfl, rfl⟩
    · assumption
  -- A comment that is hoisted leaves the line, one that is not ends it.
  | case3 n column i items hi hh ih =>
    subst hh
    obtain ⟨-, hrest⟩ := List.forall_mem_cons.mp h
    rw [List.map_cons, hf.onto_comment hi, argumentLine, if_pos hi, if_pos rfl]
    exact (ih hrest).after rfl _
  | case4 n column i items hi hh =>
    rw [List.map_cons, hf.onto_comment hi, argumentLine, if_pos hi, if_neg hh]
    refine ⟨rfl, rfl, ?_⟩
    rw [List.map_cons, hf.onto_comment hi]
  -- An argument without a comment of its own, then one whose comment is hoisted, as more follows,
  -- and one that ends the line.
  | case5 n column i items hi j comments hc ih =>
    obtain ⟨hmoved, hrest⟩ := List.forall_mem_cons.mp h
    have hmoved : Unmoved f lay i.bare := hmoved
    have hi' : ¬ (i.onto f).isComment = true := by rwa [hf.isComment_onto]
    rw [List.map_cons, argumentLine, if_neg hi']
    simp only [hcomment, hc, hbare, ending_settle hf hmoved, leaving_onto hf hmoved]
    exact (ih hrest).after (print_placed hf hmoved _ _) _
  | case6 n column i items hi j comments text hc hn ih =>
    obtain ⟨hmoved, hrest⟩ := List.forall_mem_cons.mp h
    have hmoved : Unmoved f lay i.bare := hmoved
    have hi' : ¬ (i.onto f).isComment = true := by rwa [hf.isComment_onto]
    rw [List.map_cons, argumentLine, if_neg hi']
    simp only [hcomment, hc, hbare, helements, if_pos hn, ending_settle hf hmoved,
      leaving_onto hf hmoved]
    exact (ih hrest).after (print_placed hf hmoved _ _) _
  | case7 n column i items hi comments text hc hn =>
    obtain ⟨hmoved, hrest⟩ := List.forall_mem_cons.mp h
    have hi' : ¬ (i.onto f).isComment = true := by rwa [hf.isComment_onto]
    rw [List.map_cons, argumentLine, if_neg hi']
    simp only [hcomment, hc, helements, if_neg hn]
    exact ⟨print_placed hf hmoved _ _, leaving_onto hf hmoved _, rfl⟩

/-! ## Calls -/

/-- The line of a call starts with the head; the arguments go on where its print ends. -/
theorem alike_headLine {argumentLay : Lay} {head : Item} (hhead : Unmoved f lay head)
    {items : List Item} (h : ∀ i ∈ items, Unmoved f argumentLay i) (style : CallStyle)
    (column : Int) :
    (headLine lay argumentLay style column (head.onto f) (items.map (Item.onto f))).Alike f
      (headLine lay argumentLay style column head items) := by
  have hbare : Unmoved f lay head.bare := hhead
  have hsettle : ∀ c, settle lay c (head.onto f).bare = settle lay c (head.bare.onto f) :=
    fun _ => rfl
  have hleaving : ∀ c, leaving lay c (head.onto f).bare = leaving lay c (head.bare.onto f) :=
    fun _ => rfl
  have hcomment : (head.onto f).comment = head.comment := rfl
  simp only [headLine, hcomment, hsettle, hleaving, ending_settle hf hbare,
    leaving_onto hf hbare]
  have harguments := alike_argumentLine hf style.hoist style.arguments
    ((settle lay (column + 1) head.bare).ending (column + 1)) h
  cases hc : head.comment with
  | none => exact harguments.after (print_placed hf hbare _ _) _
  | some text =>
    by_cases hh : style.hoist = true
    · simp only [if_pos hh]
      exact harguments.after (print_placed hf hbare _ _) _
    · simp only [if_neg hh]
      exact ⟨print_placed hf hhead _ _, rfl, rfl⟩

omit hf in
/-- The column of the first argument can be read off the print. -/
theorem firstColumn_print (column : Int) (s : Script) :
    firstColumn column s.print = firstColumn column s := by
  rcases s with _ | ⟨p, _ | ⟨q, s⟩⟩
  · rfl
  · rfl
  · simp [firstColumn, Placed.ending]

/-- A call is its line, and a row for each item that is left. -/
theorem print_callPage {argumentLay bodyLay : Lay} {head : Item} {items : List Item}
    (hhead : Unmoved f lay head)
    (hargument : ∀ i ∈ items, Unmoved f argumentLay i) (hbody : ∀ i ∈ items, Unmoved f bodyLay i)
    (style : CallStyle) (column : Int) :
    (callPage lay argumentLay bodyLay style column (head.onto f) (items.map (Item.onto f))).print =
      (callPage lay argumentLay bodyLay style column head items).print := by
  have hline := alike_headLine hf hhead hargument style column
  have hrest : ∀ i ∈ (headLine lay argumentLay style column head items).rest,
      Unmoved f bodyLay i :=
    fun i hi => hbody i (headLine_rest_subset lay argumentLay style column head items i hi)
  have hfirst : firstColumn column
      (headLine lay argumentLay style column (head.onto f) (items.map (Item.onto f))).script =
      firstColumn column (headLine lay argumentLay style column head items).script := by
    rw [← firstColumn_print, hline.script, firstColumn_print]
  simp only [callPage, Page.print, Script.print_append, print_rows, hfirst, hline.script,
    hline.leaving, hline.rest, print_settledAll hf hrest]

/-! ## Clauses -/

/-- The items in front of clauses, on the line or on rows of their own. -/
theorem alike_leadingLine (margin : Int) (n : Nat) (inline : Bool) (column : Int)
    {items : List Item} (h : ∀ i ∈ items, Unmoved f lay i) :
    (leadingLine lay margin n inline column (items.map (Item.onto f))).Alike f
      (leadingLine lay margin n inline column items) := by
  fun_induction leadingLine lay margin n inline column items with
  | case1 inline column items =>
    rw [leadingLine]
    exact ⟨rfl, rfl, rfl⟩
  | case2 n inline column =>
    rw [List.map_nil, leadingLine]
    · exact ⟨rfl, rfl, rfl⟩
    · assumption
  | case3 n inline column i items hi ih =>
    obtain ⟨-, hrest⟩ := List.forall_mem_cons.mp h
    rw [List.map_cons, hf.onto_comment hi, leadingLine, if_pos hi]
    exact (ih hrest).after rfl _
  | case4 n column i items hi j ih =>
    obtain ⟨hmoved, hrest⟩ := List.forall_mem_cons.mp h
    have hi' : ¬ (i.onto f).isComment = true := by rwa [hf.isComment_onto]
    rw [List.map_cons, leadingLine, if_neg hi', if_pos rfl]
    simp only [ending_settle hf hmoved, leaving_onto hf hmoved]
    exact (ih hrest).after (print_placed hf hmoved _ _) _
  | case5 n inline column i items hi hinline ih =>
    obtain ⟨hmoved, hrest⟩ := List.forall_mem_cons.mp h
    have hi' : ¬ (i.onto f).isComment = true := by rwa [hf.isComment_onto]
    rw [List.map_cons, leadingLine, if_neg hi', if_neg hinline]
    refine (ih hrest).after ?_ _
    rw [print_rows, print_rows, print_settled hf hmoved]

end

section

variable {f : Node → Node} (hf : Inward f) {lay : Lay}

include hf

/-- A call with clauses: the head, the items in front, and the records of the rest. -/
theorem print_clausesPage {head : Item} (hhead : Unmoved f lay head) {items : List Item}
    (h : ∀ i ∈ items, Unmoved f lay i) (leading : Nat) (column : Int) :
    (clausesPage lay leading column (head.onto f) (items.map (Item.onto f))).print =
      (clausesPage lay leading column head items).print := by
  have hcomment : (head.onto f).comment = head.comment := rfl
  have hline := alike_leadingLine hf.spares (column + 2) leading head.comment.isNone
    ((settle lay (column + 1) head).ending (column + 1)) h
  have hrest : ∀ i ∈ (leadingLine lay (column + 2) leading head.comment.isNone
      ((settle lay (column + 1) head).ending (column + 1)) items).rest, Unmoved f lay i :=
    fun i hi => h i (leadingLine_rest_subset _ _ _ _ _ _ i hi)
  have hnext : ∀ r : Record,
      Gap.line (column + 2) (!(r.onto f).isComment) = .line (column + 2) !r.isComment := by
    intro r
    cases r <;> rfl
  have hrecords := print_recordScript hf.spares (unmoved_ofItems hrest) (.line (column + 2) false)
    (column + 2) (fun r => .line (column + 2) !r.isComment) hnext (.line (column + 2) false)
  simp only [clausesPage, Page.print, hcomment, ending_settle hf.spares hhead,
    leaving_onto hf.spares hhead, Script.print_append, Script.print_cons, hline.script,
    hline.leaving, hline.rest, hf.ofItems, print_settle hf.spares hhead, hrecords]

/-! ## Plans -/

/-- A form is a call or a call with clauses; the places of its items differ in how elements are
    laid out, and the change shows in none of them. -/
theorem print_form {head : Item} {items : List Item}
    (h : ∀ i ∈ head :: items, ∀ place : Place, Unmoved f (place.lay lay) i) (form : Form)
    (column : Int) :
    (form.page lay column (head.onto f) (items.map (Item.onto f))).print =
      (form.page lay column head items).print := by
  obtain ⟨hhead, hitems⟩ := List.forall_mem_cons.mp h
  cases form with
  | call argument body arguments indent hoist =>
    exact print_callPage hf.spares (hhead .plain) (fun i hi => hitems i hi argument)
      (fun i hi => hitems i hi body) _ column
  | clauses leading =>
    exact print_clausesPage hf (hhead .plain) (fun i hi => hitems i hi .plain) leading column

/-- **Pages in print.**  A change of the elements that leaves their print leaves the page. -/
theorem print_page {items : List Item}
    (h : ∀ i ∈ items, ∀ place : Place, Unmoved f (place.lay lay) i) (plan : Plan) (column : Int)
    (b : Bracket) :
    (plan.page lay column b (items.map (Item.onto f))).print =
      (plan.page lay column b items).print := by
  cases plan with
  | sequence => exact print_sequencePage hf.spares (fun i hi => h i hi .plain) _
  | pairs => exact print_pairsPage hf (fun i hi => h i hi .plain) _
  | headed form =>
    rcases hsplit : Item.splitHead items with ⟨leading, _ | head, rest⟩
    -- Without a head there are comments only, which stay as they are.
    · simp only [Plan.page, hf.splitHead hsplit, hsplit, Option.map_none]
    · obtain ⟨-, -, rfl, -⟩ := Item.splitHead_spec hsplit
      have hform := print_form hf (fun i hi => h i (List.mem_append_right _ hi)) form column
      simp only [Plan.page, hf.splitHead hsplit, hsplit, Option.map_some]
      exact congrArg
        (fun p : Page => { p with leaving := leadingComments leading ++ p.leaving }) hform

end

end Layout

end CljTidy
