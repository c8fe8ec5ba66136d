/-
  Which page a collection becomes.

  A plan names one of the four ways to make a page, with the places its items are laid out in; it is
  read off the bracket, the place and the items of a collection, and off nothing else.  Only a
  namespace declaration has no plan (`exists_plan`).  Everything `layout` does is said here once: a
  collection with a plan shows the page of its plan (`shows_layout`), marks and metadata are passed
  through, and a document is a list of entries.
-/
import CljTidy.Layout.Fixpoint
import CljTidy.Proofs.Item.Content
import CljTidy.Proofs.Layout.Page
import CljTidy.Proofs.Node.Face
import CljTidy.Proofs.Node.Lacks

namespace CljTidy.Layout

/-! ## Places -/

/-- Where a node stands: anywhere, as one arity of a function, or where a bracket holds pairs. -/
inductive Place
  | plain
  | arity
  | paired (bracket : Bracket)
  deriving DecidableEq

/-- The way nodes are laid out at a place. -/
def Place.lay (lay : Lay) : Place → Lay
  | .plain => lay
  | .arity => Layout.arity lay
  | .paired bracket => fun column node =>
      match node with
      | .branch b children =>
          if b = bracket then pairs lay column b children else lay column (.branch b children)
      | node => lay column node

/-- Bindings are what holds pairs in a vector. -/
theorem bindings_eq (lay : Lay) : bindings lay = Place.lay lay (.paired .vector) := by
  funext column node
  cases node with
  | branch b children => cases b <;> rfl
  | _ => rfl

/-- The place behind a mark. -/
def Mark.place : Mark → Place
  | .conditional _ => .paired .list
  | _ => .plain

/-! ## Plans -/

/-- How a list with a head is laid out: as a call, with its arguments and body at places, or as
    clauses. -/
inductive Form
  | call (argument body : Place) (arguments : Nat) (indent : Option Int) (hoist : Bool)
  | clauses (leading : Nat)
  deriving DecidableEq

namespace Form

/-- One argument on the call line, the others below it. -/
def ordinary : Form := .call .plain .plain 1 none true

/-- The page of a head and the items behind it. -/
def page (lay : Lay) (column : Int) (head : Item) (items : List Item) : Form → Page
  | call argument body arguments indent hoist =>
      callPage lay (argument.lay lay) (body.lay lay) ⟨arguments, indent.map (column + ·), hoist⟩
        column head items
  | clauses leading => clausesPage lay leading column head items

end Form

/-- How the page of a collection is made. -/
inductive Plan
  | sequence
  | pairs
  | headed (form : Form)
  deriving DecidableEq

/-- The page of the items of a collection at a column.  Comments in front of a head leave the
    list. -/
def Plan.page (lay : Lay) (column : Int) (b : Bracket) (items : List Item) : Plan → Page
  | sequence => sequencePage lay (column + b.width) items
  | pairs => pairsPage lay (column + b.width) items
  | headed form =>
      match Item.splitHead items with
      | (leading, some head, rest) =>
          let p := form.page lay column head rest
          { p with leaving := leadingComments leading ++ p.leaving }
      | (leading, none, _) => ⟨[], leadingComments leading, column⟩

/-- The form of a function. -/
def functionForm (named : Bool) (items : List Item) : Form :=
  let signature := Signature.of named items
  let hasArities :=
    match (Item.elements items).drop signature.size with
    | first :: _ => first.element.isList
    | [] => false
  if hasArities then
    if !named && !signature.hasName then .call .arity .arity 1 none true
    else .call .plain .arity (if signature.hasName then 1 else 0) (some 2) true
  else
    .call .plain .plain (if signature.hasName && signature.preamble = 0 then 2 else 1) (some 2) true

/-- The form of a method. -/
def methodForm (items : List Item) : Form :=
  match Item.elements items with
  | _ :: _ :: third :: _ =>
      if third.element.isList then .call .plain .arity 2 (some 2) true
      else .call .plain .plain 3 (some 2) true
  | _ => .call .plain .plain 3 (some 2) true

/-- The form of a binding form. -/
def bindingForm (items : List Item) : Form :=
  match Item.elements items with
  | first :: _ =>
      if first.element.isVector then .call (.paired .vector) .plain 1 (some 2) true else .ordinary
  | [] => .ordinary

/-- The form a rule prescribes; none for a namespace declaration. -/
def Rule.form? (items : List Item) : Rule → Option Form
  | .indented arguments hoist => some (.call .plain .plain arguments (some 2) hoist)
  | .function named => some (functionForm named items)
  | .method => some (methodForm items)
  | .binding => some (bindingForm items)
  | .clauses leading => some (.clauses leading)
  | .ns => none

/-- The form of a list with the given head and items behind it. -/
def headForm? (table : Table) (head : Item) (items : List Item) : Option Form :=
  match table.ruleFor? head with
  | none => some .ordinary
  | some rule => rule.form? items

/-- The form of a list. -/
def listForm? (table : Table) (items : List Item) : Option Form :=
  match (Item.splitHead items).2 with
  | (none, _) => some .ordinary
  | (some head, rest) => headForm? table head rest

/-- The plan of a collection anywhere. -/
def plainPlan? (table : Table) (b : Bracket) (items : List Item) : Option Plan :=
  match b with
  | .list => (listForm? table items).map .headed
  | .map => some .pairs
  | _ => some .sequence

/-- The items are those of an arity: they start with a vector. -/
def startsWithVector (items : List Item) : Bool :=
  (Item.splitHead items).2.1.any fun head => head.element.isVector

/-- The plan of a collection at a place. -/
def Place.plan? (table : Table) (b : Bracket) (items : List Item) : Place → Option Plan
  | .plain => plainPlan? table b items
  | .arity =>
      if b = .list ∧ startsWithVector items then
        some (.headed (.call .plain .plain 0 (some 1) true))
      else plainPlan? table b items
  | .paired bracket => if b = bracket then some .pairs else plainPlan? table b items

/-! ## Layouts show pages -/

/-- The head is not a comment. -/
theorem isComment_of_splitHead {items leading rest : List Item} {head : Item}
    (h : Item.splitHead items = (leading, some head, rest)) : head.isComment = false :=
  (Item.splitHead_spec h).2.1 head rfl

section

variable {lay : Lay} {column : Int} {head : Item} {items : List Item}

/-- A call shows the page of its form: the styles differ in the column of the body only, which the
    form gives relative to the list. -/
theorem shows_form_call (hhead : head.isComment = false) (argument body : Place) (arguments : Nat)
    (indent : Option Int) (hoist : Bool) :
    (call lay (argument.lay lay) (body.lay lay) ⟨arguments, indent.map (column + ·), hoist⟩ column
      head items).Shows .list
      ((Form.call argument body arguments indent hoist).page lay column head items) :=
  shows_call lay _ _ _ column hhead items

/-- A function is a call in one of three styles, told by its signature; -/
theorem shows_function (hhead : head.isComment = false) (named : Bool) :
    (Layout.function lay named column head items).Shows .list
      ((functionForm named items).page lay column head items) := by
  have hplain : ∀ n : Nat,
      (call lay lay lay { arguments := n, bodyColumn := some (column + 2) } column head items).Shows
        .list ((Form.call .plain .plain n (some 2) true).page lay column head items) :=
    fun n => shows_form_call hhead .plain .plain n (some 2) true
  unfold Layout.function functionForm
  generalize Signature.of named items = signature
  dsimp only
  generalize (Item.elements items).drop signature.size = behind
  cases behind with
  | nil => exact hplain _
  | cons first more =>
    dsimp only
    by_cases hlist : first.element.isList = true
    · rw [if_pos hlist, if_pos hlist]
      by_cases hname : (!named && !signature.hasName) = true
      · rw [if_pos hname, if_pos hname]
        exact shows_form_call hhead .arity .arity 1 none true
      · rw [if_neg hname, if_neg hname]
        exact shows_form_call hhead .plain .arity _ (some 2) true
    · rw [if_neg hlist, if_neg hlist]
      exact hplain _

/-- a method in one of two, -/
theorem shows_method (hhead : head.isComment = false) :
    (Layout.method lay column head items).Shows .list
      ((methodForm items).page lay column head items) := by
  have hplain :
      (call lay lay lay { arguments := 3, bodyColumn := some (column + 2) } column head items).Shows
        .list ((Form.call .plain .plain 3 (some 2) true).page lay column head items) :=
    shows_form_call hhead .plain .plain 3 (some 2) true
  unfold Layout.method methodForm
  rcases Item.elements items with _ | ⟨first, _ | ⟨second, _ | ⟨third, more⟩⟩⟩
  · exact hplain
  · exact hplain
  · exact hplain
  · dsimp only
    by_cases hlist : third.element.isList = true
    · rw [if_pos hlist, if_pos hlist]
      exact shows_form_call hhead .plain .arity 2 (some 2) true
    · rw [if_neg hlist, if_neg hlist]
      exact hplain

/-- and so is a form that binds. -/
theorem shows_binding (hhead : head.isComment = false) :
    (Layout.binding lay column head items).Shows .list
      ((bindingForm items).page lay column head items) := by
  unfold Layout.binding bindingForm
  rcases Item.elements items with _ | ⟨first, more⟩
  · exact shows_form_call hhead .plain .plain 1 none true
  · dsimp only
    by_cases hvector : first.element.isVector = true
    · rw [if_pos hvector, if_pos hvector, bindings_eq]
      exact shows_form_call hhead (.paired .vector) .plain 1 (some 2) true
    · rw [if_neg hvector, if_neg hvector]
      exact shows_form_call hhead .plain .plain 1 none true

/-- Every rule but that of declarations shows the page of its form. -/
theorem shows_apply {rule : Rule} {form : Form} (hform : rule.form? items = some form)
    (hhead : head.isComment = false) :
    (rule.apply lay column head items).Shows .list (form.page lay column head items) := by
  cases rule with
  | indented arguments hoist =>
    obtain rfl := Option.some.inj hform
    exact shows_form_call hhead .plain .plain arguments (some 2) hoist
  | function named =>
    obtain rfl := Option.some.inj hform
    exact shows_function hhead named
  | method =>
    obtain rfl := Option.some.inj hform
    exact shows_method hhead
  | binding =>
    obtain rfl := Option.some.inj hform
    exact shows_binding hhead
  | clauses leading =>
    obtain rfl := Option.some.inj hform
    exact shows_clauses lay leading column hhead items
  | ns => cases hform

end

/-- A list shows the page of its head and items, below the comments in front. -/
theorem shows_list {table : Table} {lay : Lay} {children : List Node} {form : Form}
    (hform : listForm? table (Item.group children) = some form) (column : Int) :
    (list table lay column children).Shows .list
      ((Plan.headed form).page lay column .list (Item.group children)) := by
  unfold list Plan.page
  unfold listForm? at hform
  rcases hsplit : Item.splitHead (Item.group children) with ⟨leading, _ | head, rest⟩
  · exact ⟨rfl, rfl⟩
  · rw [hsplit] at hform
    have hhead := isComment_of_splitHead hsplit
    have hform : headForm? table head rest = some form := hform
    unfold headForm? at hform
    dsimp only
    cases hrule : table.ruleFor? head with
    | none =>
      rw [hrule] at hform
      obtain rfl : Form.ordinary = form := by simpa using hform
      obtain ⟨hnode, hhoisted⟩ := shows_call lay lay lay { arguments := 1 } column hhead rest
      exact ⟨hnode, congrArg _ hhoisted⟩
    | some rule =>
      rw [hrule] at hform
      have happly : (rule.apply lay column head rest).Shows .list (form.page lay column head rest) :=
        shows_apply hform hhead
      exact ⟨happly.node, congrArg _ happly.hoisted⟩

/-- What does not start with a vector is no arity. -/
theorem arity_of_not_vector {lay : Lay} {b : Bracket} {children : List Node} {column : Int}
    (h : ¬ (b = .list ∧ startsWithVector (Item.group children) = true)) :
    arity lay column (.branch b children) = lay column (.branch b children) := by
  unfold arity
  split
  · rename_i cs heq
    injection heq with hb' hcs
    subst hb' hcs
    split
    · rename_i leading head items hsplit
      have hvector : ¬ head.element.isVector = true := by
        intro hv
        exact h ⟨rfl, by simp [startsWithVector, hsplit, hv]⟩
      rw [if_neg hvector]
    · rfl
  · rfl

/-- Anywhere a collection shows the page of its plan: a row for each item, for each pair, or the
    page of a list. -/
theorem shows_plain {table : Table} {b : Bracket} {children : List Node} {plan : Plan}
    (hb : b.isCollection = true) (h : plainPlan? table b (Item.group children) = some plan)
    (column : Int) :
    (layout table column (.branch b children)).Shows b
      (plan.page (layout table) column b (Item.group children)) := by
  rw [layout_eq_step]
  cases b with
  | list =>
    simp only [plainPlan?, Option.map_eq_some_iff] at h
    obtain ⟨form, hform, rfl⟩ := h
    exact shows_list hform column
  | map =>
    obtain rfl : Plan.pairs = plan := by simpa [plainPlan?] using h
    exact shows_pairs (layout table) column .map children
  | vector =>
    obtain rfl : Plan.sequence = plan := by simpa [plainPlan?] using h
    exact shows_sequence (layout table) column .vector children
  | set =>
    obtain rfl : Plan.sequence = plan := by simpa [plainPlan?] using h
    exact shows_sequence (layout table) column .set children
  | document => cases hb
  | fragment => cases hb

/-- **Collections.**  A collection with a plan shows the page of its plan. -/
theorem shows_layout {table : Table} {place : Place} {b : Bracket} {children : List Node}
    {plan : Plan} (hb : b.isCollection = true)
    (hplan : place.plan? table b (Item.group children) = some plan) (column : Int) :
    (place.lay (layout table) column (.branch b children)).Shows b
      (plan.page (layout table) column b (Item.group children)) := by
  cases place with
  | plain => exact shows_plain hb hplan column
  | arity =>
    by_cases h : b = .list ∧ startsWithVector (Item.group children) = true
    · -- The list is laid out as an arity: a call whose head is the vector, with a body column of
      -- its own.
      obtain ⟨rfl, hvector⟩ := h
      rw [Place.plan?, if_pos ⟨rfl, hvector⟩] at hplan
      obtain rfl := Option.some.inj hplan
      unfold startsWithVector at hvector
      rcases hsplit : Item.splitHead (Item.group children) with ⟨leading, _ | head, rest⟩
      · rw [hsplit] at hvector
        cases hvector
      · rw [hsplit] at hvector
        have hvector : head.element.isVector = true := hvector
        obtain ⟨hnode, hhoisted⟩ := shows_call (layout table) (layout table) (layout table)
          { bodyColumn := some (column + 1) } column (isComment_of_splitHead hsplit) rest
        simp only [Place.lay, arity, hsplit, hvector, if_true]
        exact ⟨by rw [Plan.page, hsplit]; exact hnode,
          by rw [Plan.page, hsplit]; exact congrArg _ hhoisted⟩
    · -- It is laid out as anywhere else.
      rw [Place.plan?, if_neg h] at hplan
      simp only [Place.lay, arity_of_not_vector h]
      exact shows_plain hb hplan column
  | paired bracket =>
    simp only [Place.lay]
    -- Pairs, if it is the bracket that is laid out in pairs here.
    by_cases h : b = bracket
    · rw [Place.plan?, if_pos h] at hplan
      obtain rfl : Plan.pairs = plan := by simpa using hplan
      rw [if_pos h]
      exact shows_pairs (layout table) column b children
    · rw [Place.plan?, if_neg h] at hplan
      rw [if_neg h]
      exact shows_plain hb hplan column

/-- Documents and fragments come out as they do anywhere, or as pairs where they hold pairs. -/
theorem lay_of_not_collection {table : Table} {b : Bracket} (hb : b.isCollection = false)
    (children : List Node) (place : Place) (column : Int) :
    place.lay (layout table) column (.branch b children) = layout table column (.branch b children) ∨
      (place.lay (layout table) column (.branch b children)).Shows b
        (Plan.pairs.page (layout table) column b (Item.group children)) := by
  cases place with
  | plain => exact .inl rfl
  | arity =>
    refine .inl (arity_of_not_vector ?_)
    rintro ⟨rfl, -⟩
    cases hb
  | paired bracket =>
    simp only [Place.lay]
    split
    · exact .inr (shows_pairs (layout table) column b children)
    · exact .inl rfl

/-! ## Plans exist -/

/-- Indents of a form go to the right. -/
def Form.Indents : Form → Prop
  | .call _ _ _ indent _ => ∀ c ∈ indent, 0 < c
  | .clauses _ => True

/-- Indents of a plan go to the right. -/
def Plan.Indents : Plan → Prop
  | .headed form => form.Indents
  | _ => True

/-- Where a rule indents its body, it does so by two columns. -/
theorem indents_form {items : List Item} {rule : Rule} {form : Form}
    (h : rule.form? items = some form) : form.Indents := by
  have htwo : ∀ c ∈ some (2 : Int), 0 < c := by simp
  cases rule with
  | indented arguments hoist => obtain rfl := Option.some.inj h; exact htwo
  | function named =>
    obtain rfl := Option.some.inj h
    unfold functionForm
    dsimp only
    repeat' split
    all_goals first | exact htwo | rintro c ⟨⟩
  | method =>
    obtain rfl := Option.some.inj h
    unfold methodForm
    repeat' split
    all_goals exact htwo
  | binding =>
    obtain rfl := Option.some.inj h
    unfold bindingForm
    repeat' split
    all_goals first | exact htwo | rintro c ⟨⟩
  | clauses leading => obtain rfl := Option.some.inj h; trivial
  | ns => cases h

/-- So do lists without a rule. -/
theorem indents_listForm {table : Table} {items : List Item} {form : Form}
    (h : listForm? table items = some form) : form.Indents := by
  have hordinary : Form.ordinary.Indents := by rintro c ⟨⟩
  unfold listForm? headForm? at h
  split at h
  · obtain rfl := Option.some.inj h
    exact hordinary
  · split at h
    · obtain rfl := Option.some.inj h
      exact hordinary
    · exact indents_form h

/-- Every plan indents to the right. -/
theorem indents_plan {table : Table} {place : Place} {b : Bracket} {items : List Item} {plan : Plan}
    (h : place.plan? table b items = some plan) : plan.Indents := by
  have hplain : plainPlan? table b items = some plan → plan.Indents := by
    intro h
    cases b with
    | list =>
      obtain ⟨form, hform, rfl⟩ := Option.map_eq_some_iff.mp h
      exact indents_listForm hform
    | _ =>
      obtain rfl := Option.some.inj h
      trivial
  cases place with
  | plain => exact hplain h
  | arity =>
    rw [Place.plan?] at h
    split at h
    · obtain rfl := Option.some.inj h
      intro c hc
      obtain rfl := Option.some.inj hc
      decide
    · exact hplain h
  | paired bracket =>
    rw [Place.plan?] at h
    split at h
    · obtain rfl := Option.some.inj h
      trivial
    · exact hplain h

/-- A list headed by a symbol with the rule for declarations. -/
def declares (table : Table) : Node → Bool
  | .list children =>
      (Item.splitHead (Item.group children)).2.1.any fun head => table.ruleFor? head == some .ns
  | _ => false

/-- A list without a form is headed by a symbol with the rule for declarations. -/
theorem ns_of_no_form {table : Table} {items : List Item} (h : listForm? table items = none) :
    ∃ leading head rest, Item.splitHead items = (leading, some head, rest) ∧
      table.ruleFor? head = some .ns := by
  unfold listForm? at h
  rcases hsplit : Item.splitHead items with ⟨leading, _ | head, rest⟩
  · rw [hsplit] at h
    cases h
  · rw [hsplit] at h
    have hform : headForm? table head rest = none := h
    refine ⟨leading, head, rest, rfl, ?_⟩
    unfold headForm? at hform
    cases hrule : table.ruleFor? head with
    | none => rw [hrule] at hform; cases hform
    | some rule =>
      rw [hrule] at hform
      cases rule <;> first | rfl | cases hform

/-- A collection without a plan is a list without a form, laid out as it is anywhere. -/
theorem lay_of_no_plan {table : Table} {place : Place} {b : Bracket} {children : List Node}
    (h : place.plan? table b (Item.group children) = none) :
    b = .list ∧ listForm? table (Item.group children) = none ∧
      ∀ column, place.lay (layout table) column (.branch b children) =
        list table (layout table) column children := by
  have hplain : plainPlan? table b (Item.group children) = none →
      b = .list ∧ listForm? table (Item.group children) = none := by
    intro h
    cases b with
    | list => exact ⟨rfl, Option.map_eq_none_iff.mp h⟩
    | _ => cases h
  have hlist : ∀ column, layout table column (.list children) =
      list table (layout table) column children := fun column => layout_eq_step table column _
  cases place with
  | plain =>
    obtain ⟨rfl, hform⟩ := hplain h
    exact ⟨rfl, hform, hlist⟩
  | arity =>
    by_cases hvector : b = .list ∧ startsWithVector (Item.group children) = true
    · rw [Place.plan?, if_pos hvector] at h
      cases h
    · rw [Place.plan?, if_neg hvector] at h
      obtain ⟨rfl, hform⟩ := hplain h
      exact ⟨rfl, hform, fun column => (arity_of_not_vector hvector).trans (hlist column)⟩
  | paired bracket =>
    by_cases hb : b = bracket
    · rw [Place.plan?, if_pos hb] at h
      cases h
    · rw [Place.plan?, if_neg hb] at h
      obtain ⟨rfl, hform⟩ := hplain h
      refine ⟨rfl, hform, fun column => ?_⟩
      simp only [Place.lay, if_neg hb]
      exact hlist column

/-- **Plans exist.**  Every collection but a declaration has a plan. -/
theorem exists_plan {table : Table} {b : Bracket} {children : List Node}
    (h : declares table (.branch b children) = false) (place : Place) :
    ∃ plan, place.plan? table b (Item.group children) = some plan := by
  cases hplan : place.plan? table b (Item.group children) with
  | some plan => exact ⟨plan, rfl⟩
  | none =>
    obtain ⟨rfl, hform, -⟩ := lay_of_no_plan hplan
    obtain ⟨leading, head, rest, hsplit, hrule⟩ := ns_of_no_form hform
    simp [declares, hsplit, hrule] at h

/-- A rule is found by the symbol at the head, if no `&` is in front. -/
theorem mem_of_ruleFor {table : Table} {head : Item} {rule : Rule}
    (h : table.ruleFor? head = some rule) :
    ∃ name, head.element = .atom name ∧ head.marker = none ∧ (name, rule) ∈ table := by
  unfold Table.ruleFor? at h
  split at h
  · rename_i name helement hmarker
    obtain ⟨before, behind, rfl, -⟩ := List.lookup_eq_some_iff.mp h
    exact ⟨name, helement, hmarker, by simp⟩
  · cases h

/-- What declares a namespace is a list with the rule for it. -/
theorem rule_of_declares {table : Table} {n : Node} (h : declares table n = true) :
    ∃ children leading head rest, n = .list children ∧
      Item.splitHead (Item.group children) = (leading, some head, rest) ∧
      table.ruleFor? head = some .ns := by
  unfold declares at h
  split at h
  · rename_i children
    rcases hsplit : Item.splitHead (Item.group children) with ⟨leading, _ | head, rest⟩
    · rw [hsplit] at h
      cases h
    · rw [hsplit] at h
      exact ⟨children, leading, head, rest, rfl, hsplit, by simpa using h⟩
  · cases h

/-- Without the rule for declarations there are none. -/
theorem declares_of_no_ns {table : Table} (htable : ∀ entry ∈ table, entry.2 ≠ .ns) (n : Node) :
    declares table n = false := by
  refine Bool.eq_false_iff.mpr fun h => ?_
  obtain ⟨children, leading, head, rest, -, -, hrule⟩ := rule_of_declares h
  obtain ⟨name, -, -, hmem⟩ := mem_of_ruleFor hrule
  exact htable _ hmem rfl

/-- In the usual table, declarations are headed by `ns`. -/
theorem declares_standard {n : Node} (h : n.declaresNamespace = false) :
    declares .standard n = false := by
  refine Bool.eq_false_iff.mpr fun hdeclares => ?_
  obtain ⟨children, leading, head, rest, rfl, hsplit, hrule⟩ := rule_of_declares hdeclares
  obtain ⟨name, helement, hmarker, hmem⟩ := mem_of_ruleFor hrule
  have hnames : ∀ entry ∈ Table.standard, entry.2 = .ns → entry.1 = "ns" := by decide
  obtain rfl : name = "ns" := hnames _ hmem rfl
  simp [Node.declaresNamespace, hsplit, helement, hmarker] at h

/-! ## Leaves, marks and metadata -/

section

variable {table : Table}

/-- A leaf as it comes out. -/
def tidyLeaf (kind : LeafKind) (text : String) : Node :=
  match kind with
  | .comment => .comment (Comment.tidy text)
  | kind => .leaf kind text

/-- A leaf comes out tidy wherever it stands. -/
theorem lay_leaf (place : Place) (column : Int) (kind : LeafKind) (text : String) :
    place.lay (layout table) column (.leaf kind text) = { node := tidyLeaf kind text } := by
  have h : layout table column (.leaf kind text) = { node := tidyLeaf kind text } := by
    rw [layout_eq_step]
    cases kind <;> rfl
  cases place <;> exact h

/-- A mark comes out in front of its form, which is laid out behind it. -/
theorem lay_wrap (place : Place) (column : Int) (mark : Mark) (child : Node) :
    place.lay (layout table) column (.wrap mark child) =
      let r := (Mark.place mark).lay (layout table) (column + mark.width) child
      { r with node := .wrap mark r.node } := by
  have hplain : Mark.place mark = .plain →
      step table (layout table) column (.wrap mark child) =
        let r := step table (layout table) (column + mark.width) child
        { r with node := .wrap mark r.node } := by
    intro hm
    cases mark <;> first | rfl | cases hm
  have h : layout table column (.wrap mark child) =
      let r := (Mark.place mark).lay (layout table) (column + mark.width) child
      { r with node := .wrap mark r.node } := by
    rw [layout_eq_step]
    by_cases hm : ∃ splicing, mark = .conditional splicing
    · obtain ⟨splicing, rfl⟩ := hm
      cases child with
      | branch b children =>
        cases b with
        | list => rfl
        | _ => simp only [Mark.place, Place.lay, layout_eq_step]; rfl
      | _ => simp only [Mark.place, Place.lay, layout_eq_step]; rfl
    · have hp : Mark.place mark = .plain := by
        cases mark <;> first | rfl | exact absurd ⟨_, rfl⟩ hm
      rw [hplain hp, hp, ← layout_eq_step]
      rfl
  cases place <;> exact h

/-- The target starts one space behind the metadata. -/
theorem lay_annotated (place : Place) (column : Int) (metadata target : Node) :
    place.lay (layout table) column (.annotated metadata target) =
      let m := layout table (column + 1) metadata
      let t := layout table (endColumn (column + 1) m.node.text + 1) target
      { node := .annotated m.node t.node
        hoisted := m.hoisted ++ t.hoisted
        notes := m.notes ++ t.notes } := by
  have h : layout table column (.annotated metadata target) = _ := layout_eq_step table column _
  simp only [step, ← layout_eq_step] at h
  cases place <;> exact h

/-- What nothing is known about comes out as it is. -/
theorem lay_unknown (place : Place) (column : Int) :
    place.lay (layout table) column .unknown = { node := .unknown } := by
  have h : layout table column .unknown = { node := .unknown } := by
    rw [layout_eq_step]
    rfl
  cases place <;> exact h

end

/-! ## Faces -/

/-- What stands in front of a signature is told by the faces of the items, -/
theorem preambleOf_map_face (items : List Item) :
    Signature.preambleOf (items.map Item.face) = Signature.preambleOf items := by
  rcases items with _ | ⟨first, _ | ⟨second, _ | ⟨third, more⟩⟩⟩ <;>
    simp [Signature.preambleOf, Item.face]

/-- and so is the signature. -/
theorem signature_faces (named : Bool) (items : List Item) :
    Signature.of named (Item.faces items) = Signature.of named items := by
  unfold Signature.of
  rw [Item.elements_faces, Item.faces]
  cases Item.elements items with
  | nil => rfl
  | cons first rest => simp [Item.face, preambleOf_map_face]

/-- The form a rule prescribes can be read off the faces of the items. -/
theorem form_faces (rule : Rule) (items : List Item) :
    rule.form? (Item.faces items) = rule.form? items := by
  cases rule with
  | function named =>
    simp only [Rule.form?, functionForm, signature_faces, Item.elements_faces]
    rw [Item.faces, ← List.map_drop]
    cases (Item.elements items).drop (Signature.of named items).size with
    | nil => rfl
    | cons first more => simp [Item.face]
  | method =>
    simp only [Rule.form?, methodForm, Item.elements_faces]
    rw [Item.faces]
    rcases Item.elements items with _ | ⟨first, _ | ⟨second, _ | ⟨third, more⟩⟩⟩ <;>
      simp [Item.face]
  | binding =>
    simp only [Rule.form?, bindingForm, Item.elements_faces]
    rw [Item.faces]
    cases Item.elements items with
    | nil => rfl
    | cons first more => simp [Item.face]
  | indented arguments hoist => rfl
  | clauses leading => rfl
  | ns => rfl

/-- A rule is found by the face of the head. -/
theorem ruleFor_face (table : Table) (head : Item) :
    table.ruleFor? head.face = table.ruleFor? head := by
  obtain ⟨element, marker, comment⟩ := head
  cases element with
  | leaf kind text => cases kind <;> cases marker <;> rfl
  | wrap m n =>
    obtain ⟨m', n', h⟩ := Node.over_eq_wrap m n.face
    rw [Item.face, Node.face_wrap, h]
    rfl
  | _ => rfl

/-- So the form of a list can be read off the faces of its items. -/
theorem listForm_faces (table : Table) (items : List Item) :
    listForm? table (Item.faces items) = listForm? table items := by
  unfold listForm?
  rw [Item.splitHead_faces]
  rcases hsplit : Item.splitHead items with ⟨leading, head, rest⟩
  obtain ⟨hhead, hrest⟩ := Item.splitHead_elements hsplit
  have hf : (Item.faces items).head? = head.map Item.face := by
    rw [Item.faces, List.head?_map, hhead]
  have ht : (Item.faces items).tail = Item.faces rest := by
    rw [Item.faces, ← List.map_tail, hrest, Item.faces]
  rw [hf, ht]
  cases head with
  | none => rfl
  | some head =>
    show headForm? table head.face (Item.faces rest) = headForm? table head rest
    simp only [headForm?, ruleFor_face, form_faces]

/-- **Plans look at faces only.** -/
theorem plan_faces (table : Table) (place : Place) (b : Bracket) (items : List Item) :
    place.plan? table b (Item.faces items) = place.plan? table b items := by
  have hplain : plainPlan? table b (Item.faces items) = plainPlan? table b items := by
    cases b <;> simp [plainPlan?, listForm_faces]
  have hvector : startsWithVector (Item.faces items) = startsWithVector items := by
    unfold startsWithVector
    rw [Item.splitHead_faces]
    rcases hsplit : Item.splitHead items with ⟨leading, head, rest⟩
    obtain ⟨hhead, -⟩ := Item.splitHead_elements hsplit
    have hf : (Item.faces items).head? = head.map Item.face := by
      rw [Item.faces, List.head?_map, hhead]
    rw [hf]
    cases head <;> simp [Item.face]
  cases place with
  | plain => exact hplain
  | arity => simp only [Place.plan?, hplain, hvector]
  | paired bracket => simp only [Place.plan?, hplain]

/-- The node of a list laid out by a rule is a list. -/
theorem isList_apply (lay : Lay) (rule : Rule) (column : Int) (head : Item) (items : List Item) :
    ∃ cs, (rule.apply lay column head items).node = .list cs := by
  cases rule with
  | function named =>
    simp only [Rule.apply, Layout.function]
    repeat' split
    all_goals exact ⟨_, rfl⟩
  | method =>
    simp only [Rule.apply, Layout.method]
    repeat' split
    all_goals exact ⟨_, rfl⟩
  | binding =>
    simp only [Rule.apply, Layout.binding]
    repeat' split
    all_goals exact ⟨_, rfl⟩
  | _ => exact ⟨_, rfl⟩

/-- Laying out keeps the bracket of a collection. -/
theorem face_step_branch (table : Table) (lay : Lay) (column : Int) (b : Bracket)
    (cs : List Node) : (step table lay column (.branch b cs)).node.face = .branch b [] := by
  cases b with
  | list =>
    simp only [step, list]
    rcases Item.splitHead (Item.group cs) with ⟨leading, _ | head, items⟩
    · rfl
    · cases hrule : table.ruleFor? head with
      | none => simp only [hrule]; rfl
      | some rule =>
        obtain ⟨ds, hds⟩ := isList_apply lay rule column head items
        simp only [hrule, Rendered.withLeading, hds]
        rfl
  | _ => rfl

/-- **Laying out keeps faces.** -/
theorem face_lay (table : Table) (place : Place) (column : Int) (n : Node) :
    (place.lay (layout table) column n).node.face = n.face := by
  induction n using Node.face.induct generalizing place column with
  | case1 text => rw [lay_leaf]; rfl
  | case2 kind text h =>
    rw [lay_leaf]
    cases kind <;> rfl
  | case3 b cs =>
    have hplain : (layout table column (.branch b cs)).node.face = .branch b [] := by
      rw [layout_eq_step, face_step_branch]
    cases place with
    | plain => exact hplain
    -- Whatever is laid out for the brackets, it is a list between the same ones.
    | arity =>
      simp only [Place.lay]
      unfold arity
      split
      · rename_i heq
        obtain rfl : b = .list := by injection heq
        split
        · split
          · rfl
          · exact hplain
        · exact hplain
      · exact hplain
    | paired bracket =>
      simp only [Place.lay]
      split
      · rfl
      · exact hplain
  | case4 mark n ih =>
    rw [lay_wrap]
    exact congrArg mark.over (ih _ _)
  | case5 metadata target => rw [lay_annotated]; rfl
  | case6 => rw [lay_unknown]

/-! ## Documents -/

/-- Items below each other at the margin, with an empty line behind everything but a comment. -/
def spread : Gap → List Item → Script
  | _, [] => []
  | g, i :: items => ⟨g, i⟩ :: spread (.line 0 !i.isComment) items

/-- Items that are spread over a document are the items. -/
@[simp] theorem items_spread (g : Gap) (items : List Item) : (spread g items).items = items := by
  induction items generalizing g with
  | nil => rfl
  | cons i items ih => simp [spread, ih]

/-- The script of a document. -/
def documentScript (lay : Lay) (items : List Item) : Script :=
  spread .none (items.flatMap (settled lay 0))

/-- An item as an entry of a document. -/
def Entry.ofItem (i : Item) : Entry := ⟨i.written, i.isComment⟩

/-- Joining entries writes the script of their items. -/
theorem joinNodes_map_ofItem (i : Item) (items : List Item) :
    Entry.joinNodes ((i :: items).map Entry.ofItem) = (spread .none (i :: items)).nodes := by
  induction items generalizing i with
  | nil => simp [Entry.joinNodes, Entry.ofItem, spread, Placed.nodes, Gap.nodes]
  | cons j items ih =>
    have hsep : (Entry.ofItem i).separator = (Gap.line 0 !i.isComment).nodes := by
      unfold Entry.separator
      cases h : i.isComment <;> simp [Entry.ofItem, h, Gap.nodes, Buffer.breakNodes]
    have hrest := ih j
    simp only [List.map_cons, spread, Script.nodes_cons, Placed.nodes, Gap.nodes,
      List.nil_append] at hrest ⊢
    rw [Entry.joinNodes, hrest, hsep]
    · simp [Entry.ofItem, Gap.nodes]
    · simp

/-- The entries of an item are those of what it settles to. -/
theorem itemEntries_eq {lay : Lay} {i : Item}
    (hlay : ∀ c, (lay c i.element).node.isComment = i.element.isComment) :
    (itemEntries lay i).1 = (settled lay 0 i).map Entry.ofItem := by
  have hcomment : ∀ text, Entry.ofItem (.ofComment text) = Entry.ofComment text := fun _ => rfl
  by_cases hi : i.isComment = true
  · simp [itemEntries, settled, settle, leaving, hi, hcomment]
  · have hsheet : ((Draft.start 0).item lay true i).sheet =
        ((Sheet.start 0).write [⟨.none, settle lay 0 i⟩]).hoist (leaving lay 0 i) :=
      Draft.sheet_item_gather lay (Draft.start 0) .none i
    have hchildren : ((Draft.start 0).item lay true i).children = (settle lay 0 i).written := by
      show ((Draft.start 0).item lay true i).sheet.nodes = _
      rw [hsheet, Sheet.write_eq]
      show [] ++ Script.nodes [⟨.none, settle lay 0 i⟩] = _
      simp [Placed.nodes, Gap.nodes]
    have hhoisted : ((Draft.start 0).item lay true i).hoisted = leaving lay 0 i := by
      show ((Draft.start 0).item lay true i).sheet.hoisted = _
      rw [hsheet, Sheet.write_eq]
      rfl
    have hopen : (settle lay 0 i).isComment = false := by
      have hnode := hlay (0 + Draft.markerWidth i.marker)
      rw [show i.element.isComment = false from Bool.eq_false_iff.mpr hi] at hnode
      simp only [settle, hi]
      exact hnode
    rw [itemEntries, if_neg hi]
    simp only [hchildren, hhoisted, settled, List.map_append, List.map_map, List.map_cons,
      List.map_nil, Entry.ofItem, hopen]
    rfl

/-- **Documents.**  A document shows the script of its items. -/
theorem layout_document (table : Table) (column : Int) (children : List Node) :
    (layout table column (.document children)).node =
        .document (documentScript (layout table) (Item.group children)).nodes ∧
      (layout table column (.document children)).hoisted = [] := by
  rw [layout_eq_step]
  refine ⟨?_, rfl⟩
  have hentries : ((Item.group children).map (itemEntries (layout table))).flatMap Prod.fst =
      ((Item.group children).flatMap (settled (layout table) 0)).map Entry.ofItem := by
    rw [List.flatMap_map, List.map_flatMap]
    congr 1
    funext i
    refine itemEntries_eq fun c => ?_
    rw [← Node.isComment_face, ← Node.isComment_face i.element]
    exact congrArg Node.isComment (face_lay table .plain c i.element)
  show Node.document (Entry.joinNodes _) = _
  rw [hentries, documentScript]
  cases (Item.group children).flatMap (settled (layout table) 0) with
  | nil => rfl
  | cons i items => rw [joinNodes_map_ofItem]

/-! ## Induction over the rank -/

section

variable {P : Node → Prop} (leaf : ∀ kind text, P (.leaf kind text))
  (branch : ∀ b cs, (∀ n : Node, rank n ≤ rankAll cs → P n) → P (.branch b cs))
  (wrap : ∀ m n, P n → P (.wrap m n)) (annotated : ∀ m t, P m → P t → P (.annotated m t))
  (unknown : P .unknown)

include leaf branch wrap annotated unknown

-- Marks and metadata do not add to the rank, so they are passed structurally.
/-- Recursion on the node; a branch passes on to everything of smaller rank, whether or not it is
    a part of the node. -/
theorem rank_induction_below {r : Nat} (ih : ∀ n : Node, rank n < r → P n) :
    (n : Node) → rank n ≤ r → P n
  | .leaf kind text, _ => leaf kind text
  | .branch b cs, h => by
      refine branch b cs fun n hn => ih n ?_
      rw [rank] at h
      omega
  | .wrap m n, h => wrap m n (rank_induction_below ih n h)
  | .annotated m t, h => by
      rw [rank] at h
      exact annotated m t (rank_induction_below ih m (by omega))
        (rank_induction_below ih t (by omega))
  | .unknown, _ => unknown

/-- Induction over a node that goes from a branch to everything not deeper than its children, what
    canonical order makes of them included. -/
theorem rank_induction (n : Node) : P n := by
  suffices h : ∀ r (n : Node), rank n ≤ r → P n from h _ n (Nat.le_refl _)
  intro r
  induction r with
  | zero =>
    exact rank_induction_below leaf branch wrap annotated unknown
      fun m hm => absurd hm (Nat.not_lt_zero _)
  | succ r ih =>
    exact rank_induction_below leaf branch wrap annotated unknown
      fun m hm => ih m (Nat.le_of_lt_succ hm)

end

/-- Elements of items are not deeper than the children. -/
theorem rank_element {cs : List Node} {i : Item} (hi : i ∈ Item.group cs) :
    rank i.element ≤ rankAll cs :=
  Nat.le_of_lt_succ (below_of_within (within_group cs) i hi)

/-- Induction over a node that goes from a branch to the elements of its items. -/
theorem item_induction {P : Node → Prop} (leaf : ∀ kind text, P (.leaf kind text))
    (branch : ∀ b cs, (∀ i ∈ Item.group cs, P i.element) → P (.branch b cs))
    (wrap : ∀ m n, P n → P (.wrap m n)) (annotated : ∀ m t, P m → P t → P (.annotated m t))
    (unknown : P .unknown) (n : Node) : P n :=
  rank_induction leaf (fun b cs ih => branch b cs fun _ hi => ih _ (rank_element hi)) wrap annotated
    unknown n

end CljTidy.Layout
