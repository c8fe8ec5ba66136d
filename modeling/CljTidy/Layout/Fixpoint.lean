/-
  As many rounds as the rank says are enough.

  `step` hands only elements of smaller rank to `lay`, so two ways to lay out elements that agree
  below the rank of a node lay out the node the same way.  Hence more rounds change nothing, and
  `layout` solves its own equation: it is `step` with `layout` itself for the elements.
-/
import CljTidy.Layout.Rank

namespace CljTidy.Layout

/-! ## Agreement -/

/-- Two ways to lay out elements agree below a rank. -/
def Agree (r : Nat) (f g : Lay) : Prop :=
  ∀ column node, rank node < r → f column node = g column node

/-- Agreement below a rank is agreement below every smaller one. -/
theorem Agree.mono {r s : Nat} {f g : Lay} (h : Agree r f g) (hs : s ≤ r) : Agree s f g :=
  fun column node hn => h column node (Nat.lt_of_lt_of_le hn hs)

/-- An item is written by its element, so it is enough that its element is below the rank. -/
theorem item_congr {r : Nat} {f g : Lay} (h : Agree r f g) {i : Item} (hi : rank i.element < r)
    (gather : Bool) (d : Draft) : d.item f gather i = d.item g gather i := by
  simp only [Draft.item, h _ _ hi]

/-- Two folds over a list come to the same if their steps do so on its members. -/
theorem foldl_congr {α β : Type} {w v : α → β → α} :
    ∀ {xs : List β} (a : α), (∀ x ∈ xs, ∀ a, w a x = v a x) → xs.foldl w a = xs.foldl v a
  | [], _, _ => rfl
  | x :: xs, a, h => by
      rw [List.foldl_cons, List.foldl_cons, h x (List.mem_cons_self ..) a]
      exact foldl_congr _ fun y hy => h y (List.mem_cons_of_mem _ hy)

/-- So do two ways of writing lines, one for each member of a list. -/
theorem lines_congr {α : Type} {w v : Draft → α → Draft} {xs : List α} (column : Int) (d : Draft)
    (h : ∀ x ∈ xs, ∀ d, w d x = v d x) : d.lines column w xs = d.lines column v xs := by
  cases xs with
  | nil => rfl
  | cons x xs =>
    rw [Draft.lines, Draft.lines, h x (List.mem_cons_self ..)]
    exact foldl_congr _ fun y hy d => h y (List.mem_cons_of_mem _ hy) _

/-! ## Pairs and sequences -/

/-- What holds of the elements of items, for the parts of a record. -/
def RecordBelow (r : Nat) : Record → Prop
  | .pair key value => rank key.element < r ∧ rank value.element < r
  | .orphan item => rank item.element < r
  | .comment _ => True

/-- Pairing makes records of the items it is given and of no others: their elements stay below the
    rank.  Induction follows the recursion of pairing, a waiting key and what it holds included. -/
theorem recordBelow_pairFrom {r : Nat} :
    ∀ {items : List Item} {waiting : Option (Item × List Record)}, Below r items →
      (∀ w ∈ waiting, rank w.1.element < r ∧ ∀ x ∈ w.2, RecordBelow r x) →
      ∀ x ∈ Record.pairFrom waiting items, RecordBelow r x
  | [], none, _, _ => by simp [Record.pairFrom]
  | [], some (key, held), _, hw => by
      have hw := hw _ rfl
      intro x hx
      rcases List.mem_cons.mp hx with rfl | hx
      · exact hw.1
      · exact hw.2 x hx
  | i :: items, none, h, _ => by
      have hi := h i (List.mem_cons_self ..)
      have ht : Below r items := fun j hj => h j (List.mem_cons_of_mem _ hj)
      unfold Record.pairFrom
      split
      · -- A comment is a record of its own.
        intro x hx
        rcases List.mem_cons.mp hx with rfl | hx
        · trivial
        · exact recordBelow_pairFrom ht (by simp) x hx
      · -- An element waits for its value.
        exact recordBelow_pairFrom ht (by simpa using hi)
  | i :: items, some (key, held), h, hw => by
      have hi := h i (List.mem_cons_self ..)
      have ht : Below r items := fun j hj => h j (List.mem_cons_of_mem _ hj)
      have hw := hw _ rfl
      unfold Record.pairFrom
      split
      · -- A comment is held behind the key.
        refine recordBelow_pairFrom ht ?_
        rintro w ⟨⟩
        refine ⟨hw.1, fun x hx => ?_⟩
        rcases List.mem_append.mp hx with hx | hx
        · exact hw.2 x hx
        · exact List.mem_singleton.mp hx ▸ trivial
      · -- The value comes: what was held goes in front of the pair.
        intro x hx
        simp only [List.mem_append, List.mem_cons] at hx
        rcases hx with (hx | hx) | rfl | hx
        · simp only [Record.trailing, Option.mem_toList, Option.map_eq_some_iff] at hx
          obtain ⟨_, _, rfl⟩ := hx
          trivial
        · exact hw.2 x hx
        · exact ⟨hw.1, hi⟩
        · exact recordBelow_pairFrom ht (by simp) x hx

/-- The records of items below a rank are below it. -/
theorem recordBelow_ofItems {r : Nat} {items : List Item} (h : Below r items) :
    ∀ x ∈ Record.ofItems items, RecordBelow r x :=
  recordBelow_pairFrom h (by simp)

/-- A record is written by its items. -/
theorem record_congr {r : Nat} {f g : Lay} (h : Agree r f g) {x : Record} (hx : RecordBelow r x)
    (d : Draft) : d.record f x = d.record g x := by
  cases x with
  | comment => rfl
  | orphan i => exact item_congr h hx false d
  | pair key value => simp only [Draft.record, item_congr h hx.1, item_congr h hx.2]

/-- A row of items depends on elements below the rank of the collection. -/
theorem sequence_congr {f g : Lay} (children : List Node) (h : Agree (rankAll children + 1) f g)
    (column : Int) (bracket : Bracket) :
    sequence f column bracket children = sequence g column bracket children := by
  have hb := below_of_within (within_group children)
  simp only [sequence, lines_congr _ _ fun i hi d => item_congr h (hb i hi) false d]

/-- So do rows of keys and values. -/
theorem pairs_congr {f g : Lay} (children : List Node) (h : Agree (rankAll children + 1) f g)
    (column : Int) (bracket : Bracket) :
    pairs f column bracket children = pairs g column bracket children := by
  have hb := recordBelow_ofItems (below_of_within (within_group children))
  simp only [pairs, lines_congr _ _ fun x hx d => record_congr h (hb x hx) d]

/-! ## Calls -/

/-- The arguments on the line of a call: every round of the loop writes one item. -/
theorem placeArguments_congr {r : Nat} {f g : Lay} (h : Agree r f g) (hoist : Bool) :
    ∀ {items : List Item} (n : Nat) (first : Option Int) (d : Draft), Below r items →
      placeArguments f hoist n first d items = placeArguments g hoist n first d items
  | _, 0, _, _, _ => by simp [placeArguments]
  | [], _ + 1, _, _, _ => by simp [placeArguments]
  | i :: items, n + 1, first, d, hb => by
      have hi : rank i.bare.element < r := hb i (List.mem_cons_self ..)
      have ht : Below r items := fun j hj => hb j (List.mem_cons_of_mem _ hj)
      simp only [placeArguments, item_congr h hi, placeArguments_congr h hoist _ _ _ ht]

/-- The line of a call is its head and the arguments that go onto it. -/
theorem callLine_congr {r : Nat} {f g f' g' : Lay} (h : Agree r f g) (h' : Agree r f' g')
    (style : CallStyle) (column : Int) {head : Item} {items : List Item}
    (hh : rank head.element < r) (hb : Below r items) :
    callLine f f' style column head items = callLine g g' style column head items := by
  have hh : rank head.bare.element < r := hh
  simp only [callLine, item_congr h hh, placeArguments_congr h' _ _ _ _ hb]

/-- What the loop leaves for the lines below is among the items it was given. -/
theorem placeArguments_rest_subset {f : Lay} {hoist : Bool} :
    ∀ {items : List Item} {n : Nat} {first : Option Int} {d : Draft},
      ∀ i ∈ (placeArguments f hoist n first d items).rest, i ∈ items
  | items, 0, _, _ => by simp [placeArguments]
  | [], n + 1, _, _ => by simp [placeArguments]
  | j :: items, n + 1, first, d => by
      intro i hi
      unfold placeArguments at hi
      split at hi
      · split at hi
        · exact List.mem_cons_of_mem _ (placeArguments_rest_subset i hi)
        · exact hi
      · dsimp only at hi
        split at hi
        · exact List.mem_cons_of_mem _ (placeArguments_rest_subset i hi)
        · split at hi
          · exact List.mem_cons_of_mem _ (placeArguments_rest_subset i hi)
          · exact List.mem_cons_of_mem _ hi

/-- So is what is left of the items by the line of a call. -/
theorem callLine_rest_subset {f f' : Lay} {style : CallStyle} {column : Int} {head : Item}
    {items : List Item} :
    ∀ i ∈ (callLine f f' style column head items).rest, i ∈ items := by
  intro i hi
  unfold callLine at hi
  dsimp only at hi
  split at hi
  · exact placeArguments_rest_subset i hi
  · split at hi
    · exact placeArguments_rest_subset i hi
    · exact hi

/-- A call is its line and a line for each item left.  The three ways of laying out, for the head,
    for the arguments on the line and for those below it, may differ from each other. -/
theorem call_congr {r : Nat} {f g f' g' f'' g'' : Lay} (h : Agree r f g) (h' : Agree r f' g')
    (h'' : Agree r f'' g'') (style : CallStyle) (column : Int) {head : Item} {items : List Item}
    (hh : rank head.element < r) (hb : Below r items) :
    call f f' f'' style column head items = call g g' g'' style column head items := by
  simp only [call, callLine_congr h h' style column hh hb]
  rw [foldl_congr]
  exact fun i hi d => item_congr h'' (hb i (callLine_rest_subset i hi)) false _

/-! ## Elements in special places -/

/-- Laying out on a single line depends on the element alone. -/
theorem agree_flat {r : Nat} {f g : Lay} (h : Agree r f g) : Agree r (flat f) (flat g) := by
  intro column node hn
  simp only [flat, h column node hn]

/-- A vector of bindings has a smaller rank inside, everything else is an element as it is. -/
theorem agree_bindings {r : Nat} {f g : Lay} (h : Agree r f g) :
    Agree r (bindings f) (bindings g) := by
  intro column node hn
  unfold bindings
  split
  · exact pairs_congr _ (h.mono (by rw [rank] at hn; omega)) _ _
  · exact h column node hn

/-- An arity is a call of its own, of elements below its rank. -/
theorem agree_arity {r : Nat} {f g : Lay} (h : Agree r f g) : Agree r (arity f) (arity g) := by
  intro column node hn
  unfold arity
  split
  · rename_i children
    split
    · rename_i leading head items hs
      obtain ⟨hhead, hitems⟩ := below_splitHead hs
      -- The elements of the arity are below its own rank, which is where `f` and `g` agree.
      have hr : Agree (rankAll children + 1) f g := h.mono (by rw [rank] at hn; omega)
      rw [call_congr hr hr hr _ _ hhead hitems, h column _ hn]
    · exact h column _ hn
  · exact h column _ hn

/-- So is a clause of a declaration, with its entries on a single line each. -/
theorem agree_nsClause {r : Nat} {f g : Lay} (h : Agree r f g) :
    Agree r (nsClause f) (nsClause g) := by
  intro column node hn
  unfold nsClause
  split
  · rename_i children
    split
    · rename_i leading head items hs
      obtain ⟨hhead, hitems⟩ := below_splitHead hs
      have hr : Agree (rankAll children + 1) f g := h.mono (by rw [rank] at hn; omega)
      rw [call_congr hr (agree_flat hr) (agree_flat hr) _ _ hhead hitems, h column _ hn,
        agree_flat h column _ hn]
    · exact h column _ hn
  · exact h column _ hn

/-! ## Rules -/

/-- The items in front of the clauses, one in each round. -/
theorem placeLeading_congr {r : Nat} {f g : Lay} (h : Agree r f g) (bodyColumn : Int) :
    ∀ {items : List Item} (n : Nat) (inline : Bool) (d : Draft), Below r items →
      placeLeading f bodyColumn n inline d items = placeLeading g bodyColumn n inline d items
  | _, 0, _, _, _ => by simp [placeLeading]
  | [], _ + 1, _, _, _ => by simp [placeLeading]
  | i :: items, n + 1, inline, d, hb => by
      have hi := hb i (List.mem_cons_self ..)
      have ht : Below r items := fun j hj => hb j (List.mem_cons_of_mem _ hj)
      simp only [placeLeading, item_congr h hi, placeLeading_congr h bodyColumn _ _ _ ht]

/-- What is left of them is among the items that were given. -/
theorem placeLeading_rest_subset {f : Lay} {bodyColumn : Int} :
    ∀ {items : List Item} {n : Nat} {inline : Bool} {d : Draft},
      ∀ i ∈ (placeLeading f bodyColumn n inline d items).2, i ∈ items
  | items, 0, _, _ => by simp [placeLeading]
  | [], n + 1, _, _ => by simp [placeLeading]
  | j :: items, n + 1, inline, d => by
      intro i hi
      unfold placeLeading at hi
      split at hi
      · exact List.mem_cons_of_mem _ (placeLeading_rest_subset i hi)
      · exact List.mem_cons_of_mem _ (placeLeading_rest_subset i hi)

/-- A clause is a pair, and written by its items. -/
theorem clause_congr {r : Nat} {f g : Lay} (h : Agree r f g) {x : Record} (hx : RecordBelow r x)
    (d : Draft) : d.clause f x = d.clause g x := by
  cases x with
  | comment => rfl
  | orphan i => exact item_congr h hx false d
  | pair key value => simp only [Draft.clause, item_congr h hx.1, item_congr h hx.2]

/-- The clauses, one in each round. -/
theorem placeClauses_congr {r : Nat} {f g : Lay} (h : Agree r f g) (bodyColumn : Int) :
    ∀ {records : List Record} (blank : Bool) (d : Draft), (∀ x ∈ records, RecordBelow r x) →
      placeClauses f bodyColumn blank d records = placeClauses g bodyColumn blank d records
  | [], _, _, _ => by simp [placeClauses]
  | x :: records, blank, d, hx => by
      simp only [placeClauses, clause_congr h (hx x (List.mem_cons_self ..)),
        placeClauses_congr h bodyColumn _ _ fun y hy => hx y (List.mem_cons_of_mem _ hy)]

/-- A call with clauses: its head, the items in front, and the clauses that the rest of the items
    make. -/
theorem clauses_congr {r : Nat} {f g : Lay} (h : Agree r f g) (leading : Nat) (column : Int)
    {head : Item} {items : List Item} (hh : rank head.element < r) (hb : Below r items) :
    clauses f leading column head items = clauses g leading column head items := by
  have hh : rank head.bare.element < r := hh
  simp only [clauses, item_congr h hh, placeLeading_congr h _ _ _ _ hb]
  rw [placeClauses_congr h]
  exact recordBelow_ofItems fun i hi => hb i (placeLeading_rest_subset i hi)

/-- An ordinary call lays out everything the same way. -/
theorem ordinaryCall_congr {r : Nat} {f g : Lay} (h : Agree r f g) (column : Int)
    {head : Item} {items : List Item} (hh : rank head.element < r) (hb : Below r items) :
    ordinaryCall f column head items = ordinaryCall g column head items :=
  call_congr h h h _ _ hh hb

/-- A function definition lays out its elements as such or as arities. -/
theorem function_congr {r : Nat} {f g : Lay} (h : Agree r f g) (named : Bool) (column : Int)
    {head : Item} {items : List Item} (hh : rank head.element < r) (hb : Below r items) :
    function f named column head items = function g named column head items := by
  simp only [function, call_congr h h h _ _ hh hb, call_congr h h (agree_arity h) _ _ hh hb,
    call_congr h (agree_arity h) (agree_arity h) _ _ hh hb]

/-- So does a method. -/
theorem method_congr {r : Nat} {f g : Lay} (h : Agree r f g) (column : Int)
    {head : Item} {items : List Item} (hh : rank head.element < r) (hb : Below r items) :
    method f column head items = method g column head items := by
  simp only [method, call_congr h h h _ _ hh hb, call_congr h h (agree_arity h) _ _ hh hb]

/-- A form that binds lays out its first argument as bindings. -/
theorem binding_congr {r : Nat} {f g : Lay} (h : Agree r f g) (column : Int)
    {head : Item} {items : List Item} (hh : rank head.element < r) (hb : Below r items) :
    binding f column head items = binding g column head items := by
  simp only [binding, ordinaryCall_congr h _ hh hb, call_congr h (agree_bindings h) h _ _ hh hb]

/-- A rule lays out the same list the same way if the elements are laid out the same way. -/
theorem apply_congr {m : Nat} {f g : Lay} (h : Agree (m + 1) f g) (rule : Rule) (column : Int)
    {head : Item} {items : List Item} (hh : weight head.element ≤ m) (hw : Within m items) :
    rule.apply f column head items = rule.apply g column head items := by
  have hh := rank_lt_of_weight hh
  have hb := below_of_within hw
  cases rule with
  | indented => exact call_congr h h h _ _ hh hb
  | function => exact function_congr h _ _ hh hb
  | method => exact method_congr h _ hh hb
  | binding => exact binding_congr h _ hh hb
  | clauses => exact clauses_congr h _ _ hh hb
  | ns => exact call_congr h h (agree_nsClause h) _ _ hh (below_normalizeDeclarations hw)

/-! ## The equation of `layout` -/

/-- A list is laid out by the rule of its head, which is one of its items. -/
theorem list_congr (table : Table) {f g : Lay} (children : List Node)
    (h : Agree (rankAll children + 1) f g) (column : Int) :
    list table f column children = list table g column children := by
  unfold list
  split
  · rfl
  · rename_i leading head items hs
    obtain ⟨hweight, hwithin, -⟩ := within_splitHead (within_group children) hs
    obtain ⟨hhead, hitems⟩ := below_splitHead hs
    simp only [apply_congr h _ column hweight hwithin, ordinaryCall_congr h column hhead hitems]

/-- A document is laid out entry by entry, each at the margin. -/
theorem document_congr {f g : Lay} (children : List Node) (h : Agree (rankAll children + 1) f g) :
    document f children = document g children := by
  have hb := below_of_within (within_group children)
  have hmap : (Item.group children).map (itemEntries f) =
      (Item.group children).map (itemEntries g) :=
    List.map_congr_left fun i hi => by simp only [itemEntries, item_congr h (hb i hi)]
  simp only [document, hmap]

/-- A round depends on the elements of smaller rank only. -/
theorem step_congr (table : Table) {f g : Lay} :
    ∀ (node : Node) (column : Int), Agree (rank node) f g →
      step table f column node = step table g column node
  | .leaf kind _, _, _ => by cases kind <;> simp [step]
  | .unknown, _, _ => by simp [step]
  | .branch bracket children, column, h => by
      rw [rank] at h
      cases bracket <;>
        simp only [step, list_congr table children h, pairs_congr children h,
          sequence_congr children h, document_congr children h]
  | .annotated metadata target, column, h => by
      have hm := fun c => step_congr table metadata c (h.mono (by rw [rank]; omega))
      have ht := fun c => step_congr table target c (h.mono (by rw [rank]; omega))
      simp only [step, hm, ht]
  | .wrap mark child, column, h => by
      have hc := fun c => step_congr table child c (by rwa [rank] at h)
      rw [rank] at h
      -- A reader conditional lays out the children of its list as pairs; every other mark lays out
      -- its form as such.
      by_cases hcond : ∃ splicing children, mark = .conditional splicing ∧ child = .list children
      · obtain ⟨splicing, children, rfl, rfl⟩ := hcond
        rw [rank] at h
        simp only [step, pairs_congr children h]
      · rw [step, step, hc]
        all_goals
          intro splicing children hm hl
          exact hcond ⟨splicing, children, hm, hl⟩

/-- More rounds than the rank change nothing. -/
theorem rounds_eq (table : Table) :
    ∀ (m n : Nat) (column : Int) (node : Node), rank node < m → rank node < n →
      rounds table m column node = rounds table n column node
  | m + 1, n + 1, column, node, hm, hn => by
      rw [rounds, rounds]
      -- One round less on both sides, for elements of smaller rank.
      exact step_congr table node column fun c x hx =>
        rounds_eq table m n c x (by omega) (by omega)

/-- `layout` lays out a node by one round over itself. -/
theorem layout_eq_step (table : Table) (column : Int) (node : Node) :
    layout table column node = step table (layout table) column node := by
  rw [layout, rounds]
  exact step_congr table node column fun c x hx => rounds_eq table _ _ c x hx (Nat.lt_succ_self _)

end CljTidy.Layout
