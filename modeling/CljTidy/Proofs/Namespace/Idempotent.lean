/-
  Canonical order, twice.

  A declaration that can be put in canonical order can be put in it once more, and stays as it is
  (`normalize_normalize`).  The second run sees other items than the first: what stood behind a
  clause may stand in front of all of them now, a symbol is a vector, a class is a list.  None of it
  matters, because the items are found again behind the same head (`splitHead_normalize`) and items
  in canonical order are final.  That the order can be told again is because no part of a node
  becomes unknown on the way (`isKnown_normalizeClause`).
-/
import CljTidy.Proofs.Namespace.Stable

namespace CljTidy.Namespace

/-! ## Known declarations -/

/-- Known items that are written out are known. -/
theorem allKnown_ungroup {items : List Item} (h : ∀ i ∈ items, i.element.isKnown = true) :
    Node.allKnown (Item.ungroup items) = true := by
  rw [Node.allKnown_eq, List.all_eq_true]
  exact Item.forall_ungroup (P := fun n => n.isKnown = true) rfl rfl
    fun i hi => ⟨h i hi, fun _ _ => rfl, fun _ _ => rfl⟩

/-- A clause in canonical order stays known. -/
theorem isKnown_normalizeClause {n : Node} (h : n.isKnown = true) :
    (normalizeClause n).isKnown = true := by
  rcases normalizeClause_cases n with hn | ⟨cs, kind, leading, head, entries, rfl, hsplit, hn⟩
  · rw [hn]
    exact h
  · obtain ⟨-, -, hitems, -⟩ := Item.splitHead_spec hsplit
    have hgroup := Node.isKnown_group h
    rw [hitems, ← List.append_assoc] at hgroup
    rw [hn]
    refine allKnown_ungroup fun i hi => ?_
    rw [(clauseItems_perm kind leading head entries).mem_iff] at hi
    rcases List.mem_append.mp hi with hi | hi
    · exact hgroup i (List.mem_append_left _ hi)
    · obtain ⟨j, hj, rfl⟩ := List.mem_map.mp hi
      exact isKnown_entry kind (hgroup j (List.mem_append_right _ hj))

/-- Declarations in canonical order stay known. -/
theorem isKnown_normalizeDeclarations {items : List Item}
    (h : ∀ i ∈ items, i.element.isKnown = true) :
    ∀ i ∈ normalizeDeclarations items, i.element.isKnown = true := by
  intro i hi
  rw [(normalizeDeclarations_perm items).mem_iff] at hi
  obtain ⟨j, hj, rfl⟩ := List.mem_map.mp hi
  exact isKnown_normalizeClause (h j hj)

/-! ## Declarations -/

/-- The items that are put in order: those behind the head. -/
def declarations : Node → List Item
  | .branch _ children => (Item.splitHead (Item.group children)).2.2
  | _ => []

/-- The items behind the head of a known node can be put in order. -/
theorem canOrder_declarations {n : Node} (h : n.isKnown = true) :
    canOrder (declarations n) = true := by
  refine canOrder_of_known fun i hi => ?_
  cases n with
  | branch b cs =>
    have hsplit : Item.splitHead (Item.group cs) = _ := rfl
    obtain ⟨-, -, hitems, -⟩ := Item.splitHead_spec hsplit
    refine Node.isKnown_group h i ?_
    rw [hitems]
    exact List.mem_append_right _ (List.mem_append_right _ hi)
  | _ => cases hi

/-- A node in canonical order stays known. -/
theorem isKnown_normalize {b : Bracket} {cs : List Node} (h : (Node.branch b cs).isKnown = true) :
    (normalize (.branch b cs)).isKnown = true := by
  rcases normalize_cases b cs with hn | ⟨leading, head, items, hsplit, -, hn⟩
  · rw [hn]
    exact h
  · obtain ⟨-, -, hitems, -⟩ := Item.splitHead_spec hsplit
    have hgroup := Node.isKnown_group h
    rw [hitems] at hgroup
    obtain ⟨hleading, hbehind⟩ := List.forall_mem_append.mp hgroup
    obtain ⟨hhead, hrest⟩ := List.forall_mem_append.mp hbehind
    rw [hn]
    refine allKnown_ungroup (List.forall_mem_append.mpr ⟨hleading, List.forall_mem_cons.mpr ⟨?_, ?_⟩⟩)
    · exact hhead head (by simp)
    · exact isKnown_normalizeDeclarations hrest

/-- **Canonical order is idempotent.**  A known node can be put in canonical order, can be put in it
    once more, and is not changed then, whatever its bracket and its head, if neither the node nor a
    clause in it has an `&` or a discard on top of another one. -/
theorem normalize_normalize {b : Bracket} {cs : List Node}
    (hknown : (Node.branch b cs).isKnown = true) (hplain : Node.Plain cs)
    (hclauses : ∀ ds, .list ds ∈ cs → clauseKeyword? (.list ds) ≠ none → Node.Plain ds) :
    canOrder (declarations (.branch b cs)) = true ∧
      canOrder (declarations (normalize (.branch b cs))) = true ∧
      normalize (normalize (.branch b cs)) = normalize (.branch b cs) := by
  refine ⟨canOrder_declarations hknown, canOrder_declarations (isKnown_normalize hknown), ?_⟩
  rcases normalize_cases b cs with hn | ⟨leading, head, items, hsplit, helement, hn⟩
  · rw [hn, hn]
  · have hgroup := plain_of_made hplain (settled_group cs).made
    obtain ⟨-, -, hitems, -⟩ := Item.splitHead_spec hsplit
    have hfinal : ∀ i ∈ items, Final i.element := by
      intro i hi
      refine final_group hgroup hclauses i ?_
      rw [hitems]
      exact List.mem_append_right _ (List.mem_append_right _ hi)
    rw [hn, normalize_eq (splitHead_normalize hgroup hsplit) helement,
      normalizeDeclarations_normalizeDeclarations hfinal]

/-- What stood behind a clause comes to stand in front of all of them; symbols, lists, vectors and
    classes are rewritten and change places with their comments. -/
theorem normalize_normalize_moved :
    ∃ cs, cs = [.comment ";a", .newline "\n", .atom "ns", .space " ", .atom "n", .space " ",
        .list [.atom ":import", .space " ", .atom "x.Y", .comment ";b", .newline "\n",
          .vector [.atom "j.u", .space " ", .atom "D"]],
        .space " ", .atom "m", .space " ", .comment ";c", .newline "\n",
        .list [.atom ":require", .space " ", .list [.atom "c", .space " ", .atom ":as",
          .space " ", .atom "d"], .space " ", .atom "b"]] ∧
      (Node.list cs).isKnown = true ∧ Node.Plain cs ∧
      (∀ ds, .list ds ∈ cs → clauseKeyword? (.list ds) ≠ none → Node.Plain ds) ∧
      canOrder (declarations (.list cs)) = true ∧
      canOrder (declarations (normalize (.list cs))) = true ∧
      normalize (normalize (.list cs)) = normalize (.list cs) := by
  refine ⟨_, rfl, ?hknown, ?hplain, ?hclauses,
    normalize_normalize ?hknown ?hplain ?hclauses⟩
  case hknown => rfl
  case hplain => decide
  case hclauses =>
    intro ds hds _
    simp only [List.mem_cons, List.not_mem_nil, reduceCtorEq, Node.branch.injEq, true_and,
      false_or, or_false] at hds
    rcases hds with rfl | rfl <;> decide

end CljTidy.Namespace
