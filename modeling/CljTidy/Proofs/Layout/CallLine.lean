/-
  The line of a call.

  1. **Program** — a call writes its head and then goes through the items behind it: comments leave
     the list, arguments go on the line until there are enough of them, and a comment behind an
     argument either leaves too or ends the line, which is found out by looking ahead.

  2. **Specification** — without a loop.  Of the elements the first `m` are the arguments, as many
     as asked for or as there are; the items are taken apart behind the last of them (`splitAfter`).
     On the line stand the head, the arguments and the comment behind the last one.  What leaves is,
     in the order of the text, every other comment up to there; if the arguments ran out and nothing
     ended the line, the comments behind it leave as well.  All other items stand below.

  3. **The crux** (`comes_argumentLine`) — the loop over the items comes to this, by induction
     along the loop: a comment in front changes neither the arguments nor where they stand, and an
     argument in front is the last one exactly if the look-ahead finds no element.
-/
import CljTidy.Proofs.Layout.Account

namespace CljTidy

/-! ## Taking items apart -/

namespace Item

/-- The items up to the `n`-th element, and the items behind it. -/
def splitAfter : Nat → List Item → List Item × List Item
  | 0, items => ([], items)
  | _ + 1, [] => ([], [])
  | n + 1, i :: items =>
      let split := splitAfter (if i.isComment then n + 1 else n) items
      (i :: split.1, split.2)

@[simp] theorem splitAfter_zero (items : List Item) : splitAfter 0 items = ([], items) := by
  cases items <;> rfl

/-- A comment in front goes with the first part. -/
theorem splitAfter_comment (n : Nat) {i : Item} (hi : i.isComment = true) (items : List Item) :
    splitAfter (n + 1) (i :: items) =
      (i :: (splitAfter (n + 1) items).1, (splitAfter (n + 1) items).2) := by
  rw [splitAfter, if_pos hi]

/-- So does an element, and there is one less to find. -/
theorem splitAfter_element (n : Nat) {i : Item} (hi : i.isComment = false) (items : List Item) :
    splitAfter (n + 1) (i :: items) = (i :: (splitAfter n items).1, (splitAfter n items).2) := by
  rw [splitAfter, if_neg (Bool.eq_false_iff.mp hi)]

theorem elements_comment {i : Item} (hi : i.isComment = true) (items : List Item) :
    elements (i :: items) = elements items := by
  simp [elements, hi]

theorem elements_element {i : Item} (hi : i.isComment = false) (items : List Item) :
    elements (i :: items) = i :: elements items := by
  simp [elements, hi]

/-- One element in front is one more argument. -/
theorem min_elements (n : Nat) {i : Item} (hi : i.isComment = false) (items : List Item) :
    min n.succ (elements (i :: items)).length = min n (elements items).length + 1 := by
  rw [elements_element hi, List.length_cons]
  omega

/-- Nothing is lost when items are taken apart. -/
theorem splitAfter_append (n : Nat) (items : List Item) :
    (splitAfter n items).1 ++ (splitAfter n items).2 = items := by
  fun_induction splitAfter n items with
  | case1 => rfl
  | case2 => rfl
  | case3 n i items split ih => exact congrArg (i :: ·) ih

/-- The elements of the first part are the first elements. -/
theorem elements_splitAfter (n : Nat) (items : List Item) :
    elements (splitAfter n items).1 = (elements items).take n := by
  induction items generalizing n with
  | nil => cases n <;> rfl
  | cons i items ih =>
    cases n with
    | zero => rw [splitAfter_zero, List.take_zero]; rfl
    | succ n =>
      cases hi : i.isComment with
      | true => rw [splitAfter_comment n hi, elements_comment hi, elements_comment hi, ih]
      | false =>
        rw [splitAfter_element n hi, elements_element hi, elements_element hi, ih,
          List.take_succ_cons]

/-- As long as there are elements, something is split off. -/
theorem splitAfter_ne_nil {m : Nat} {items : List Item} (hm : m ≠ 0)
    (hlength : m ≤ (elements items).length) : (splitAfter m items).1 ≠ [] := by
  intro hnil
  have hnone := elements_splitAfter m items
  rw [hnil] at hnone
  have hlength' := congrArg List.length hnone
  rw [List.length_take, Nat.min_eq_left hlength] at hlength'
  exact hm hlength'.symm

end Item

namespace Layout

/-! ## Standing on the line -/

/-- The items, each with the column that an element has there if all elements stand on a line, one
    space apart, behind something that ends at the column. -/
def inLine (lay : Lay) : Int → List Item → List (Int × Item)
  | _, [] => []
  | column, i :: items =>
      (column + 1, i) ::
        inLine lay
          (if i.isComment then column else (settle lay (column + 1) i.bare).ending (column + 1)) items

/-- The elements on the line, each behind a space, without the comments behind them. -/
def inLineNodes (lay : Lay) (column : Int) (items : List Item) : List Node :=
  (inLine lay column items).flatMap fun p => .space " " :: (settle lay p.1 p.2).inlineNodes

/-- What leaves if an item is not the last one on the line: a comment on its own; of an element, the
    comments that leave it and the one behind it. -/
def departing (lay : Lay) (p : Int × Item) : List String :=
  if p.2.isComment then [p.2.element.text] else leaving lay p.1 p.2 ++ p.2.comment.toList

/-- What leaves the items up to the last one on the line, whose own comment stays. -/
def departures (lay : Lay) (places : List (Int × Item)) : List String :=
  places.dropLast.flatMap (departing lay) ++
    places.getLast?.toList.flatMap fun p => leaving lay p.1 p.2

theorem inLine_eq_nil {lay : Lay} {column : Int} {items : List Item} :
    inLine lay column items = [] ↔ items = [] := by
  cases items <;> simp [inLine]

/-- The comment behind an item that is not the last one leaves, if there is one. -/
theorem departures_cons (lay : Lay) {p : Int × Item} {places : List (Int × Item)}
    (h : places ≠ [] ∨ p.2.isComment = false ∧ p.2.comment = none) :
    departures lay (p :: places) = departing lay p ++ departures lay places := by
  cases places with
  | nil =>
    obtain ⟨hp, hcomment⟩ := h.resolve_left fun hne => hne rfl
    simp [departures, departing, hp, hcomment]
  | cons q places => simp [departures]

/-! ## The loop -/

/-- The comment behind the last of the arguments. -/
def lastComment (arguments : List Item) : Option String := arguments.getLast?.bind Item.comment

/-- An item in front does not change the last comment, if there are others or it has none. -/
theorem lastComment_cons {i : Item} {arguments : List Item}
    (h : arguments ≠ [] ∨ i.comment = none) :
    lastComment (i :: arguments) = lastComment arguments := by
  cases arguments with
  | nil => exact h.resolve_left fun hne => hne rfl
  | cons j arguments => simp [lastComment]

/-- There are fewer arguments than asked for, and no comment behind the last of them. -/
def runsOut (n m : Nat) (items : List Item) : Bool :=
  decide (m < n) && (lastComment ((Item.elements items).take m)).isNone

theorem runsOut_comment (n m : Nat) {i : Item} (hi : i.isComment = true) (items : List Item) :
    runsOut n m (i :: items) = runsOut n m items := by
  rw [runsOut, Item.elements_comment hi, runsOut]

/-- An argument in front that does not close the line leaves it to the others whether they run
    out. -/
theorem runsOut_element (n : Nat) {m : Nat} {i : Item} {items : List Item}
    (hi : i.isComment = false) (h : (Item.elements items).take m ≠ [] ∨ i.comment = none) :
    runsOut (n + 1) (m + 1) (i :: items) = runsOut n m items := by
  rw [runsOut, Item.elements_element hi, List.take_succ_cons, lastComment_cons h, runsOut]
  simp only [Nat.succ_lt_succ_iff]

/-- What the loop over the items comes to, if it finds `m` of up to `n` arguments: what it leaves on
    the line, what leaves, and the items below. -/
structure Line.Comes (lay : Lay) (n m : Nat) (column : Int) (items : List Item) (line : Line) :
    Prop where
  nodes : line.script.nodes =
    inLineNodes lay column ((Item.elements items).take m) ++
      Item.trailingNodes ((lastComment ((Item.elements items).take m)).map Comment.tidy)
  departs : line.leaving =
    departures lay (inLine lay column (Item.splitAfter m items).1) ++
      if runsOut n m items then (Item.splitAfter m items).2.map fun i => i.element.text else []
  rest : line.rest = if runsOut n m items then [] else (Item.splitAfter m items).2
  script : line.script = [] ↔ m = 0

/-- An item that is not a comment as it comes out, with its comment and without it. -/
theorem written_settle (lay : Lay) (column : Int) {i : Item} (hi : i.isComment = false) :
    (settle lay column i).written =
        (settle lay column i).inlineNodes ++ Item.trailingNodes (i.comment.map Comment.tidy) ∧
      (settle lay column i.bare).written = (settle lay column i).inlineNodes := by
  have hbare : i.bare.isComment = false := hi
  have hi' := Bool.eq_false_iff.mp hi
  have hbare' := Bool.eq_false_iff.mp hbare
  constructor
  · rw [settle, if_neg hi']
    rfl
  · rw [settle, settle, if_neg hi', if_neg hbare']
    exact List.append_nil _

theorem nodes_space (i : Item) : Placed.nodes ⟨.space, i⟩ = .space " " :: i.written := rfl

namespace Line.Comes

variable {lay : Lay} {n m : Nat} {column : Int} {items : List Item} {line : Line} {i : Item}

/-- A comment in front leaves. -/
theorem comment (h : line.Comes lay (n + 1) m column items) (hm : m ≤ (Item.elements items).length)
    (hi : i.isComment = true) :
    (line.after [] [i.element.text]).Comes lay (n + 1) m column (i :: items) := by
  have helements := Item.elements_comment hi items
  have hruns := runsOut_comment (n + 1) m hi items
  cases m with
  | zero =>
    -- There are no arguments, so all comments leave.
    have hout : runsOut (n + 1) 0 items = true := rfl
    refine ⟨by rw [helements]; exact h.nodes, ?_, ?_, h.script⟩
    · have hleaving := h.departs
      rw [hout] at hleaving
      rw [hruns, hout]
      simp only [Item.splitAfter_zero] at hleaving ⊢
      simp [Line.after, hleaving, inLine, departures]
    · have hrest := h.rest
      rw [hout] at hrest
      rw [hruns, hout]
      exact hrest
  | succ m =>
    have hne := Item.splitAfter_ne_nil (Nat.succ_ne_zero m) hm
    have hplaces : inLine lay column (i :: (Item.splitAfter (m + 1) items).1) =
        (column + 1, i) :: inLine lay column (Item.splitAfter (m + 1) items).1 := by
      rw [inLine, if_pos hi]
    refine ⟨by rw [helements]; exact h.nodes, ?_, ?_, h.script⟩
    · rw [Item.splitAfter_comment m hi, hplaces, hruns,
        departures_cons lay (.inl (mt inLine_eq_nil.mp hne)), departing, if_pos hi,
        List.append_assoc, ← h.departs]
      rfl
    · rw [Item.splitAfter_comment m hi, hruns]
      exact h.rest

/-- An argument in front goes on the line; its comment leaves, for there is an argument behind
    it. -/
theorem argument
    (h : line.Comes lay n m ((settle lay (column + 1) i.bare).ending (column + 1)) items)
    (hm : m ≤ (Item.elements items).length) (hi : i.isComment = false)
    (hbehind : m ≠ 0 ∨ i.comment = none) :
    (line.after [⟨.space, settle lay (column + 1) i.bare⟩]
      (Layout.leaving lay (column + 1) i.bare ++ i.comment.toList)).Comes lay (n + 1) (m + 1) column
        (i :: items) := by
  have harguments : (Item.elements items).take m ≠ [] ∨ i.comment = none := by
    refine hbehind.imp_left fun hne hnil => hne ?_
    have hlength := congrArg List.length hnil
    rw [List.length_take, Nat.min_eq_left hm] at hlength
    exact hlength
  have hplaces : inLine lay ((settle lay (column + 1) i.bare).ending (column + 1))
        (Item.splitAfter m items).1 ≠ [] ∨ i.isComment = false ∧ i.comment = none :=
    hbehind.imp (fun hne => mt inLine_eq_nil.mp (Item.splitAfter_ne_nil hne hm))
      fun hnone => ⟨hi, hnone⟩
  have hruns := runsOut_element n hi harguments
  have hi' := Bool.eq_false_iff.mp hi
  refine ⟨?_, ?_, ?_, by simp [Line.after]⟩
  · rw [Item.elements_element hi, List.take_succ_cons, lastComment_cons harguments, inLineNodes,
      inLine, if_neg hi', List.flatMap_cons, List.append_assoc]
    show Placed.nodes _ ++ line.script.nodes = _
    rw [h.nodes, nodes_space, (written_settle lay (column + 1) hi).2]
    rfl
  · rw [Item.splitAfter_element m hi, hruns, inLine, if_neg hi', departures_cons lay hplaces,
      departing, if_neg hi', List.append_assoc, ← h.departs]
    rfl
  · rw [Item.splitAfter_element m hi, hruns]
    exact h.rest

/-- The last argument, with a comment behind it. -/
theorem last (lay : Lay) (n : Nat) (column : Int) (hi : i.isComment = false) {text : String}
    (hcomment : i.comment = some text) (items : List Item) :
    (⟨[⟨.space, settle lay (column + 1) i⟩], Layout.leaving lay (column + 1) i, items⟩ : Line).Comes
      lay (n + 1) 1 column (i :: items) := by
  have hargument : (Item.elements (i :: items)).take 1 = [i] := by
    rw [Item.elements_element hi, List.take_succ_cons, List.take_zero]
  have hstay : lastComment [i] = some text := hcomment
  have hruns : runsOut (n + 1) 1 (i :: items) = false := by
    rw [runsOut, hargument, hstay, Option.isNone_some, Bool.and_false]
  refine ⟨?_, ?_, ?_, by simp⟩
  · rw [hargument, hstay, Script.nodes_cons, nodes_space, (written_settle lay (column + 1) hi).1,
      hcomment]
    simp [inLineNodes, inLine]
  · rw [hruns, Item.splitAfter_element 0 hi]
    simp [inLine, departures]
  · rw [hruns, Item.splitAfter_element 0 hi]
    simp

end Line.Comes

/-- **The loop.** -/
theorem comes_argumentLine (lay : Lay) (n : Nat) (column : Int) (items : List Item) :
    (argumentLine lay true n column items).Comes lay n (min n (Item.elements items).length) column
      items := by
  fun_induction argumentLine lay true n column items with
  -- No argument is asked for, or no item is left.
  | case1 column items =>
    rw [Nat.zero_min]
    exact ⟨rfl, by simp [inLine, departures, runsOut], by simp [runsOut], iff_of_true rfl rfl⟩
  | case2 n column hn =>
    rw [show min n (Item.elements []).length = 0 from Nat.min_zero n]
    exact ⟨rfl, by simp [inLine, departures], by simp, iff_of_true rfl rfl⟩
  -- A comment in front leaves.
  | case3 n column i items hi hh ih =>
    rw [Item.elements_comment hi]
    exact ih.comment (Nat.min_le_right _ _) hi
  | case4 n column i items hi hh => exact absurd rfl hh
  -- Without a comment behind it, an argument may be the last one or not.
  | case5 n column i items hi j comments hcomment ih =>
    have hi : i.isComment = false := Bool.eq_false_iff.mpr hi
    have hline := ih.argument (Nat.min_le_right _ _) hi (.inr hcomment)
    rw [hcomment, Option.toList_none, List.append_nil] at hline
    rw [Item.min_elements n hi]
    exact hline
  -- The look-ahead has found an element, so there is another argument.
  | case6 n column i items hi j comments text hcomment hn ih =>
    have hi : i.isComment = false := Bool.eq_false_iff.mpr hi
    have hmore : min n (Item.elements items).length ≠ 0 := by
      have hsome : (Item.elements items).length ≠ 0 := by
        simpa [List.isEmpty_iff] using hn.2.2
      omega
    have hline := ih.argument (Nat.min_le_right _ _) hi (.inl hmore)
    rw [hcomment] at hline
    rw [Item.min_elements n hi]
    exact hline
  -- It has found none, or enough arguments are on the line: this is the last one.
  | case7 n column i items hi comments text hcomment hn =>
    have hi : i.isComment = false := Bool.eq_false_iff.mpr hi
    have hnone : min n (Item.elements items).length = 0 := by
      simp only [true_and, not_and, Bool.not_eq_true, Bool.not_eq_false', List.isEmpty_iff] at hn
      by_cases hzero : n = 0
      · omega
      · rw [hn hzero]
        exact Nat.min_zero n
    rw [Item.min_elements n hi, hnone]
    exact .last lay n column hi hcomment items

/-! ## The page -/

/-- Items below each other behind line breaks. -/
theorem nodes_rows (column : Int) (items : List Item) :
    (rows column (.line column false) items).nodes =
      items.flatMap fun i => Buffer.breakNodes column false ++ i.written := by
  induction items with
  | nil => rfl
  | cons i items ih => rw [rows, Script.nodes_cons, ih, List.flatMap_cons]; rfl

/-- An item closes its line exactly if the last of its nodes is a comment. -/
theorem getLast_written (i : Item) : i.written.getLast?.any Node.isComment = i.closesLine := by
  obtain ⟨element, marker, comment⟩ := i
  cases comment with
  | some text => simp [Item.written, Item.trailingNodes, Item.closesLine, Node.isComment]
  | none =>
    simp [Item.written, Item.trailingNodes, Item.inlineNodes, Item.closesLine, Item.isComment]

/-- A line is closed if a comment stands last on it. -/
theorem closesLine_nodes (s : Script) : s.closesLine = s.nodes.getLast?.any Node.isComment := by
  rcases List.eq_nil_or_concat s with rfl | ⟨front, p, rfl⟩
  · rfl
  · have hne : p.item.written ≠ [] := by simp [Item.written, Item.inlineNodes]
    rw [Script.closesLine, Script.nodes, List.concat_eq_append, List.getLast?_concat,
      List.flatMap_append, List.flatMap_singleton, Placed.nodes, ← List.append_assoc,
      List.getLast?_append, Option.or_of_isSome (List.getLast?_isSome.mpr hne)]
    exact (getLast_written p.item).symm

/-! ## Line breaks -/

/-- A form comes out as a form, if layout keeps faces. -/
theorem isForm_settle {lay : Lay} (hlay : KeepsFace lay) {i : Item} (hi : i.isComment = false)
    (hform : i.element.isForm = true) (column : Int) :
    (settle lay column i).element.isForm = true := by
  rw [settle, if_neg (Bool.eq_false_iff.mp hi)]
  exact (hlay.isForm _ _).trans hform

/-- A form and its marker on a line hold no line break at the top. -/
theorem newline_inlineNodes {i : Item} (h : i.element.isForm = true) :
    ∀ n ∈ i.inlineNodes, n.isNewline = false :=
  Item.forall_inlineNodes (P := fun n => n.isNewline = false) rfl (fun _ _ => rfl)
    (Node.isNewline_of_form h)

/-- Nothing on the line of the head is a line break. -/
theorem newline_inLineNodes {lay : Lay} (hlay : KeepsFace lay) {items : List Item}
    (h : ∀ i ∈ items, i.isComment = false ∧ i.element.isForm = true) (column : Int) :
    ∀ n ∈ inLineNodes lay column items, n.isNewline = false := by
  induction items generalizing column with
  | nil => rintro n ⟨⟩
  | cons i items ih =>
    obtain ⟨⟨hi, hform⟩, hrest⟩ := List.forall_mem_cons.mp h
    rw [inLineNodes, inLine, List.flatMap_cons]
    refine List.forall_mem_append.mpr ⟨List.forall_mem_cons.mpr ⟨rfl, ?_⟩, ih hrest _⟩
    exact newline_inlineNodes (isForm_settle hlay hi hform _)

theorem newline_trailingNodes (comment : Option String) :
    ∀ n ∈ Item.trailingNodes comment, n.isNewline = false :=
  Item.forall_trailingNodes (P := fun n => n.isNewline = false) rfl fun _ _ => rfl

/-! ## Calls -/

/-- The nodes on the line of a head: the head, its arguments and the comment behind the last one. -/
def headNodes (lay argumentLay : Lay) (column : Int) (head : Item) (arguments : List Item) :
    List Node :=
  (settle lay (column + 1) head).inlineNodes ++
    inLineNodes argumentLay ((settle lay (column + 1) head.bare).ending (column + 1)) arguments ++
    Item.trailingNodes ((lastComment arguments).map Comment.tidy)

/-- The line of a head and the arguments behind it. -/
theorem nodes_headLine (lay : Lay) {argumentLay : Lay} {n m : Nat} {column : Int} {head : Item}
    (hhead : head.isComment = false) {items : List Item} {line : Line}
    (h : line.Comes argumentLay n m ((settle lay (column + 1) head.bare).ending (column + 1)) items) :
    Script.nodes (⟨.none, settle lay (column + 1) head.bare⟩ :: line.script) =
      headNodes lay argumentLay column head ((Item.elements items).take m) := by
  have hnone : Placed.nodes ⟨.none, settle lay (column + 1) head.bare⟩ =
      (settle lay (column + 1) head.bare).written := rfl
  rw [Script.nodes_cons, h.nodes, hnone, (written_settle lay (column + 1) hhead).2,
    ← List.append_assoc]
  rfl

/-- Nothing on the line of a head is a line break, if layout keeps the forms on it forms. -/
theorem newline_headNodes {lay argumentLay : Lay} (hlay : KeepsFace lay)
    (hargument : KeepsFace argumentLay) {head : Item}
    (hhead : head.isComment = false ∧ head.element.isForm = true) {arguments : List Item}
    (h : ∀ i ∈ arguments, i.isComment = false ∧ i.element.isForm = true) (column : Int) :
    ∀ c ∈ headNodes lay argumentLay column head arguments, c.isNewline = false := by
  have hfirst := newline_inlineNodes (isForm_settle hlay hhead.1 hhead.2 (column + 1))
  exact List.forall_mem_append.mpr ⟨List.forall_mem_append.mpr
    ⟨hfirst, newline_inLineNodes hargument h _⟩, newline_trailingNodes _⟩

/-- A head found among grouped children is a form, and so are the elements behind it. -/
theorem forms_of_splitHead {children : List Node} {leading items : List Item} {head : Item}
    (hsplit : Item.splitHead (Item.group children) = (leading, some head, items)) :
    (head.isComment = false ∧ head.element.isForm = true) ∧
      ∀ i ∈ Item.elements items, i.isComment = false ∧ i.element.isForm = true := by
  obtain ⟨-, hhead, hitems, -⟩ := Item.splitHead_spec hsplit
  have hform : ∀ i ∈ head :: items, i.isComment = false →
      i.isComment = false ∧ i.element.isForm = true := by
    intro i hi hnot
    have hmem : i ∈ Item.group children := hitems ▸ List.mem_append_right _ hi
    exact ⟨hnot, isForm_of_group hmem hnot⟩
  refine ⟨hform head (List.mem_cons_self ..) (hhead head rfl), fun i hi => ?_⟩
  obtain ⟨hmem, hnot⟩ := List.mem_filter.mp hi
  exact hform i (List.mem_cons_of_mem _ hmem) (by simpa using hnot)

/-- The nodes below: each item behind a line break, and the comments that leave it on lines of their
    own in front. -/
def belowNodes (lay : Lay) (margin : Int) (items : List Item) : List Node :=
  (items.flatMap (settled lay margin)).flatMap fun i => Buffer.breakNodes margin false ++ i.written

/-- The line break behind a comment that stands last. -/
def closingNodes (margin : Int) (nodes : List Node) : List Node :=
  if nodes.getLast?.any Node.isComment then Buffer.breakNodes margin false else []

/-- What a call comes to if comments may leave it: `m` arguments are found of up to `n`. -/
structure CallComes (lay argumentLay bodyLay : Lay) (n m : Nat) (margin column : Int) (head : Item)
    (items : List Item) (r : Rendered) : Prop where
  /-- The items are taken apart behind the last argument. -/
  parts : (Item.splitAfter m items).1 ++ (Item.splitAfter m items).2 = items
  arguments : Item.elements (Item.splitAfter m items).1 = (Item.elements items).take m
  comments : runsOut n m items = true → ∀ i ∈ (Item.splitAfter m items).2, i.isComment = true
  hoisted : r.hoisted =
    leaving lay (column + 1) head ++ head.comment.toList ++
      departures argumentLay
        (inLine argumentLay ((settle lay (column + 1) head.bare).ending (column + 1))
          (Item.splitAfter m items).1) ++
      if runsOut n m items then (Item.splitAfter m items).2.map fun i => i.element.text else []
  node : ∃ children, r.node = .list children ∧
    let line := headNodes lay argumentLay column head ((Item.elements items).take m)
    let below := belowNodes bodyLay margin
      (if runsOut n m items then [] else (Item.splitAfter m items).2)
    children.takeWhile (fun c => !c.isNewline) = line ∧
      children.dropWhile (fun c => !c.isNewline) = below ++ closingNodes margin (line ++ below)

/-- If the arguments run out, only comments are left. -/
theorem comments_of_runsOut {n : Nat} {items : List Item}
    (h : runsOut n (min n (Item.elements items).length) items = true) :
    ∀ i ∈ (Item.splitAfter (min n (Item.elements items).length) items).2, i.isComment = true := by
  have hall : Item.elements (Item.splitAfter (min n (Item.elements items).length) items).2 = [] := by
    have hless : min n (Item.elements items).length < n :=
      of_decide_eq_true (Bool.and_eq_true_iff.mp h).1
    have hparts := congrArg Item.elements
      (Item.splitAfter_append (min n (Item.elements items).length) items)
    rw [Item.elements, List.filter_append, ← Item.elements, ← Item.elements,
      Item.elements_splitAfter, List.take_of_length_le (by omega)] at hparts
    exact List.append_right_eq_self.mp hparts
  intro i hi
  have hnot := List.filter_eq_nil_iff.mp hall i hi
  simpa using hnot

/-- A list of nodes broken behind the first part. -/
theorem takeWhile_break {line below : List Node} (hline : ∀ c ∈ line, c.isNewline = false)
    (hbelow : ∀ c ∈ below.head?, c.isNewline = true) :
    (line ++ below).takeWhile (fun c => !c.isNewline) = line ∧
      (line ++ below).dropWhile (fun c => !c.isNewline) = below := by
  have hpos : ∀ c ∈ line, (!c.isNewline) = true := fun c hc => by rw [hline c hc]; rfl
  rw [List.takeWhile_append_of_pos hpos, List.dropWhile_append_of_pos hpos]
  cases below with
  | nil => simp
  | cons c below =>
    have hc := hbelow c rfl
    simp [hc]

/-- What is below a line starts with a line break. -/
theorem head_below (lay : Lay) (margin : Int) (items : List Item) (line : List Node) :
    ∀ c ∈ (belowNodes lay margin items ++
      closingNodes margin (line ++ belowNodes lay margin items)).head?, c.isNewline = true := by
  intro c hc
  unfold belowNodes closingNodes at hc
  cases hitems : items.flatMap (settled lay margin) with
  | nil =>
    rw [hitems, List.flatMap_nil, List.nil_append] at hc
    split at hc
    · obtain rfl := Option.mem_some.mp hc
      rfl
    · cases hc
  | cons i items =>
    rw [hitems] at hc
    obtain rfl := Option.mem_some.mp hc
    rfl

/-- The page of a call, if comments may leave it and the loop over the items comes to `line`, with
    `m` arguments. -/
theorem callPage_of_hoist (lay argumentLay bodyLay : Lay) {n m : Nat} (bodyColumn : Option Int)
    (column : Int) (head : Item) {items : List Item} {line : Line}
    (hline : argumentLine argumentLay true n
      ((settle lay (column + 1) head.bare).ending (column + 1)) items = line)
    (hm : line.script = [] ↔ m = 0) :
    let h := settle lay (column + 1) head.bare
    let margin := bodyColumn.getD (if m = 0 then column + 1 else h.ending (column + 1) + 1)
    callPage lay argumentLay bodyLay ⟨n, bodyColumn, true⟩ column head items =
      ⟨⟨.none, h⟩ :: line.script ++
          rows margin (.line margin false) (line.rest.flatMap (settled bodyLay margin)),
        leaving lay (column + 1) head ++ head.comment.toList ++ line.leaving, margin⟩ := by
  intro h margin
  have hfirst : firstColumn column (⟨.none, h⟩ :: line.script) =
      if m = 0 then column + 1 else h.ending (column + 1) + 1 := by
    cases hscript : line.script with
    | nil => rw [if_pos (hm.mp hscript)]; rfl
    | cons p script =>
      have hne : m ≠ 0 := mt hm.mpr (by rw [hscript]; exact List.cons_ne_nil _ _)
      rw [if_neg hne]
      rfl
  have hhoist : (CallStyle.mk n bodyColumn true).hoist = true := rfl
  simp only [callPage, headLine_hoist lay argumentLay hhoist, hline, Line.after,
    List.singleton_append]
  rw [hfirst]

/-- The children of a page whose rows stand below a line. -/
theorem children_line (line : Script) (lay : Lay) (margin : Int) (items : List Item)
    (leaving : List String) :
    (Page.mk (line ++ rows margin (.line margin false) (items.flatMap (settled lay margin))) leaving
        margin).children =
      line.nodes ++ (belowNodes lay margin items ++
        closingNodes margin (line.nodes ++ belowNodes lay margin items)) := by
  have hnodes : Script.nodes
      (line ++ rows margin (.line margin false) (items.flatMap (settled lay margin))) =
        line.nodes ++ belowNodes lay margin items := by
    rw [Script.nodes, List.flatMap_append, ← Script.nodes, ← Script.nodes, nodes_rows]
    rfl
  rw [Page.children, closesLine_nodes, hnodes, List.append_assoc]
  rfl

/-- **Calls.**  A call whose comments may leave it comes to what is said without a loop, with as
    many arguments as asked for or as there are elements. -/
theorem call_comes (table : Table) {argumentLay : Lay} (hargument : KeepsFace argumentLay)
    (bodyLay : Lay) {children : List Node} {leading items : List Item} {head : Item}
    (hsplit : Item.splitHead (Item.group children) = (leading, some head, items)) (n : Nat)
    (bodyColumn : Option Int) (column : Int) :
    let m := min n (Item.elements items).length
    let start := (settle (layout table) (column + 1) head.bare).ending (column + 1)
    let margin := bodyColumn.getD (if m = 0 then column + 1 else start + 1)
    CallComes (layout table) argumentLay bodyLay n m margin column head items
      (call (layout table) argumentLay bodyLay ⟨n, bodyColumn, true⟩ column head items) := by
  intro m start margin
  obtain ⟨hhead, harguments⟩ := forms_of_splitHead hsplit
  have hcomes := comes_argumentLine argumentLay n start items
  obtain ⟨hnode, hhoisted⟩ :=
    shows_call (layout table) argumentLay bodyLay ⟨n, bodyColumn, true⟩ column hhead.1 items
  rw [callPage_of_hoist (layout table) argumentLay bodyLay bodyColumn column head rfl
    hcomes.script] at hnode hhoisted
  refine
    { parts := Item.splitAfter_append m items
      arguments := Item.elements_splitAfter m items
      comments := comments_of_runsOut
      hoisted := ?_
      node := ⟨_, hnode, ?_⟩ }
  · rw [hhoisted]
    show _ ++ (argumentLine argumentLay true n start items).leaving = _
    rw [hcomes.departs, ← List.append_assoc]
  · intro line below
    rw [children_line, nodes_headLine (layout table) hhead.1 hcomes, hcomes.rest]
    -- Layout keeps the head and the arguments forms, so the first line break is the one below them.
    exact takeWhile_break
      (newline_headNodes (faithful_layout table .plain) hargument hhead
        (fun i hi => harguments i (List.mem_of_mem_take hi)) column)
      (head_below bodyLay margin _ line)

/-- A head and two arguments, each with a comment behind it, and a comment between the arguments. -/
theorem call_comes_commented :
    let table : Table := [("let", .binding)]
    let children : List Node :=
      [.atom "f", .space " ", .comment ";a", .newline "\n", .atom "x", .space " ", .comment ";b",
        .newline "\n", .comment ";c", .newline "\n", .list [.atom "g"], .space " ", .comment ";d",
        .newline "\n", .atom "y"]
    let head : Item := ⟨.atom "f", none, some ";a"⟩
    let items : List Item := [⟨.atom "x", none, some ";b"⟩, ⟨.comment ";c", none, none⟩,
      ⟨.list [.atom "g"], none, some ";d"⟩, ⟨.atom "y", none, none⟩]
    Item.splitHead (Item.group children) = ([], some head, items) ∧ KeepsFace (layout table) ∧
      CallComes (layout table) (layout table) (layout table) 2 2 6 4 head items
        (call (layout table) (layout table) (layout table) ⟨2, some 6, true⟩ 4 head items) := by
  intro table children head items
  have hsplit : Item.splitHead (Item.group children) = ([], some head, items) := by decide
  have hface : KeepsFace (layout table) := faithful_layout table .plain
  exact ⟨hsplit, hface, call_comes table hface (layout table) hsplit 2 (some 6) 4⟩

end Layout

end CljTidy
