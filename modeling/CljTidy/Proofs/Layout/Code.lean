/-
  Layout keeps code.

  Under a table without the rule for declarations, a tree that is laid out has the code it had
  (`strip_layout`): every form of a collection comes out once, in order and with its marker,
  whatever comments stand between them.  Only stacked discards come out differently, as they are
  spread over the forms that they discard; apart from them the code is the same, and so is their
  number.
-/
import CljTidy.Proofs.Item.Tally
import CljTidy.Proofs.Layout.Shape
import CljTidy.Proofs.Layout.Written
import CljTidy.Proofs.Node.Strip

namespace CljTidy.Layout

/-! ## Collections -/

theorem unstacked_of_lacks {children : List Node}
    (h : ∀ c ∈ children, c.lacks Node.stacksDiscards = true) : Unstacked children := by
  intro c hc
  have hlacks := h c hc
  unfold Node.discardDepth
  split
  · rename_i n
    unfold Node.discardDepth
    split
    · cases (Node.lacks_wrap.mp hlacks).1
    · exact Nat.le_refl 1
  · exact Nat.zero_le 1

section

variable {table : Table} {P : Node → Prop} {Q : String → Prop} {children : List Node}
  (hmade : ∀ i ∈ Item.group children, i.Made P Q) {low : Int} {script : Script}
  {leaving : List String}
  (haccount : Account (Somewhere (layout table) low) (Item.group children) script.items leaving)

include hmade haccount

/-- What is told of forms the same wherever they are placed is told of the script and of the
    children alike. -/
theorem forms_somewhere {α : Type} (f : Node → List α)
    (h : ∀ i ∈ Item.group children, i.isComment = false → ∀ (place : Place) (column : Int),
      f (place.lay (layout table) column i.element).node = f i.element) :
    (script.nodes.filter Node.isForm).flatMap f = Item.holdings f (Item.group children) := by
  refine forms_page f hmade haccount fun l column hsite i hi hnot => ?_
  obtain ⟨-, place, rfl⟩ := hsite
  exact h i hi hnot place column

/-- What is written has the code of the children if the elements have theirs. -/
theorem sameCode_script (b : Bracket)
    (h : ∀ i ∈ Item.group children, i.isComment = false → ∀ (place : Place) (column : Int),
      Node.SameCode (place.lay (layout table) column i.element).node i.element)
    {nodes : List Node}
    (hnodes : nodes.filter Node.isForm = script.nodes.filter Node.isForm) :
    Node.SameCode (.branch b nodes) (.branch b children) := by
  refine .branch ?_ ?_ fun hlacks => ?_
  · -- Apart from discards: spreading them does not matter.
    have happart : ∀ i ∈ Item.group children, i.isComment = false → ∀ (place : Place) (column : Int),
        [(place.lay (layout table) column i.element).node.strip.withoutDiscards] =
          [i.element.strip.withoutDiscards] := by
      intro i hi hnot place column
      rw [(h i hi hnot place column).apart]
    rw [hnodes, List.map_eq_flatMap, List.map_eq_flatMap,
      forms_somewhere hmade haccount _ happart, holdings_group _ (.inl fun _ => rfl)]
  · -- Their number: grouping puts each of them back.
    have hcount : ∀ i ∈ Item.group children, i.isComment = false → ∀ (place : Place) (column : Int),
        (place.lay (layout table) column i.element).node.discardsHeld = i.element.discardsHeld := by
      intro i hi hnot place column
      rw [Node.discardsHeld, (h i hi hnot place column).count]
      rfl
    rw [hnodes, forms_somewhere hmade haccount _ hcount]
    refine length_group (fun n => ?_) children
    rw [Node.length_discardsHeld, Node.length_discardsHeld]
    rfl
  · -- Elements are children here, so discards are not stacked in them either.
    have hunstacked := unstacked_of_lacks hlacks
    have hwhole : ∀ i ∈ Item.group children, i.isComment = false → ∀ (place : Place) (column : Int),
        [(place.lay (layout table) column i.element).node.strip] = [i.element.strip] := by
      intro i hi hnot place column
      rw [(h i hi hnot place column).whole (hlacks _ (element_mem_of_unstacked hunstacked hi hnot))]
    rw [hnodes, List.map_eq_flatMap, List.map_eq_flatMap, forms_somewhere hmade haccount _ hwhole,
      holdings_group _ (.inr hunstacked)]

end

/-! ## Trees -/

variable {table : Table}

/-- **Forms keep their code** when they are laid out, anywhere.  Induction on the tree, through
    the items of its collections. -/
theorem sameCode_lay (n : Node) (hregular : Regular table n) (hform : n.isForm = true) :
    ∀ (place : Place) (column : Int),
      Node.SameCode (place.lay (layout table) column n).node n := by
  refine regular_induction (P := fun n => ∀ (place : Place) (column : Int),
    Node.SameCode (place.lay (layout table) column n).node n) ?_ ?_ ?_ ?_ n hregular hform
  · intro text place column
    rw [lay_leaf]
    exact .of_strip rfl
  · intro b cs hb hcs hdeclares ih place column
    obtain ⟨plan, hplan⟩ := exists_plan hdeclares place
    obtain ⟨low, hlow, hc⟩ := exists_low column
    obtain ⟨hnode, -⟩ := shows_layout hb hplan column
    have haccount := account_page (serves_somewhere (faithful_layout table) low)
      (indents_plan hplan) hlow hc b (Item.group cs)
    rw [hnode]
    exact sameCode_script (made_of_regular hcs) haccount b ih (forms_children _)
  · intro m n _ ih place column
    rw [lay_wrap]
    exact (ih _ _).wrap m
  · intro m t _ _ ihm iht place column
    rw [lay_annotated]
    exact (ihm .plain _).annotated (iht .plain _)

/-- So do documents. -/
theorem sameCode_document {children : List Node} (h : ∀ c ∈ children, Regular table c)
    (column : Int) :
    Node.SameCode (layout table column (.document children)).node (.document children) := by
  obtain ⟨hnode, -⟩ := layout_document table column children
  rw [hnode]
  refine sameCode_script (made_of_regular h) (account_document table children) .document
    (fun i hi hnot => ?_) rfl
  cases made_of_regular h i hi with
  | comment => cases hnot
  | element form made => exact sameCode_lay _ made form

/-- **Layout keeps code.**  Under a table without the rule for declarations, what comes out of a
    tree that is not a comment has the code of the tree, apart from discards, and as many of these;
    if none are stacked, it has the code of the tree. -/
theorem strip_layout {table : Table} (htable : ∀ entry ∈ table, entry.2 ≠ .ns) {n : Node}
    (hshape : n.wellShaped = true) (hcomment : n.isComment = false) (column : Int) :
    let m := (layout table column n).node
    m.strip.withoutDiscards = n.strip.withoutDiscards ∧
      m.strip.discards = n.strip.discards ∧
      (n.lacks Node.stacksDiscards = true → m.strip = n.strip) := by
  have hcode : Node.SameCode (layout table column n).node n := by
    rcases Node.wellShaped_cases hshape with ⟨children, rfl, hchildren⟩ | h
    · exact sameCode_document (fun c hc => regular_of_no_ns htable (hchildren c hc)) column
    · cases hform : n.isForm with
      | true => exact sameCode_lay n (regular_of_no_ns htable h) hform .plain column
      | false =>
        obtain ⟨kind, text, rfl⟩ := Node.leaf_of_not_form hform
        have hleaf : layout table column (.leaf kind text) = _ := lay_leaf .plain column kind text
        rw [hleaf]
        cases kind with
        | comment => cases hcomment
        | _ => exact .of_strip rfl
  exact ⟨hcode.apart, hcode.count, hcode.whole⟩

/-- Stacked discards and a comment in a vector of bindings. -/
theorem strip_layout_discards :
    (∀ entry ∈ [("let", Rule.binding)], entry.2 ≠ .ns) ∧
      let n : Node := .list [.atom "let", .space " ", .vector [.discard (.discard (.atom "a")),
        .comment ";b", .newline "\n", .atom "c", .space " ", .atom "d"]]
      n.wellShaped = true ∧ n.isComment = false ∧
      let m := (layout [("let", .binding)] (-1) n).node
      m.strip.withoutDiscards = n.strip.withoutDiscards ∧ m.strip.discards = n.strip.discards ∧
        (n.lacks Node.stacksDiscards = true → m.strip = n.strip) :=
  ⟨by decide, rfl, rfl, strip_layout (by decide) rfl rfl (-1)⟩

/-- A comment on its own is put into its tidy form, and then it is another node. -/
theorem strip_layout_comment :
    (∀ entry ∈ ([] : Table), entry.2 ≠ .ns) ∧ (Node.comment ";a").wellShaped = true ∧
      (Node.comment ";a").lacks Node.stacksDiscards = true ∧
      (layout [] 0 (.comment ";a")).node.strip = .comment ";;a" ∧
      (layout [] 0 (.comment ";a")).node.strip.withoutDiscards ≠
        (Node.comment ";a").strip.withoutDiscards ∧
      (layout [] 0 (.comment ";a")).node.strip ≠ (Node.comment ";a").strip := by
  have hnode : (layout [] 0 (.comment ";a")).node.strip = .comment ";;a" := by
    have hleaf : layout [] 0 (.comment ";a") = _ := lay_leaf .plain 0 .comment ";a"
    rw [hleaf]
    decide
  refine ⟨by decide, rfl, rfl, hnode, ?_, ?_⟩
  · rw [hnode]
    decide
  · rw [hnode]
    decide

end CljTidy.Layout
