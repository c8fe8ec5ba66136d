/-
  Which forms are discarded.

  A reader of the language skips forms: `#_` discards the form behind it, and if that form is itself
  discarded, the next one takes its place.  So `#_ #_ a b` discards `a` and `b`.  `survivors` says
  which of the forms among children are left, with a count of the discards that still wait.

  Grouping spreads discards out to say the same without stacks, and what is left of the children is
  left of the items when they are written out (`survivors_group`).  The count is the number of
  discards that grouping owes, so one child at a time grouping and the reader do the same
  (`survivors_step`).  There is one exception, and it is excluded: an `&` with a form behind it
  takes no discard when items are grouped, it waits for that form instead, but a reader skips it
  like any other form.  An `&` with nothing behind it gets its discards at the end (`left_stray`).
-/
import CljTidy.Proofs.Item.Settled

namespace CljTidy

/-! ## What is left -/

namespace Node

/-- The forms that are left of children if `owed` discards wait in front of them.  A form without
    discards is left if none waits.  Otherwise it takes one discard, and the others wait. -/
def survivors : Nat → List Node → List Node
  | _, [] => []
  | owed, c :: cs =>
      if !c.isForm then survivors owed cs
      else if c.discardDepth = 0 ∧ owed = 0 then c :: survivors 0 cs
      else survivors (owed + c.discardDepth - 1) cs

/-- A discard waits in front of an `&` among the children that has a form behind it. -/
def discardsMarker : Nat → List Node → Bool
  | _, [] => false
  | owed, c :: cs =>
      if !c.isForm then discardsMarker owed cs
      else (c == .atom "&" && owed != 0 && cs.any isForm) ||
        discardsMarker (owed + c.discardDepth - 1) cs

/-- The form is not discarded. -/
def isKept (n : Node) : Bool := n.discardDepth == 0

/-- Under a discard nothing is kept. -/
theorem isKept_discardTimes (n : Node) {k : Nat} (hk : k ≠ 0) :
    (n.discardTimes k).isKept = false := by
  cases k with
  | zero => exact absurd rfl hk
  | succ k => rfl

/-- A form is left if it has no discard and none waits; its own discards wait for what is behind
    it. -/
theorem survivors_form {c : Node} (h : c.isForm = true) (owed : Nat) (cs : List Node) :
    survivors owed (c :: cs) =
      (if c.discardDepth = 0 ∧ owed = 0 then [c] else []) ++
        survivors (owed + c.discardDepth - 1) cs := by
  rw [survivors, h, Bool.not_true, if_neg Bool.false_ne_true]
  split
  · rename_i hzero
    rw [hzero.1, hzero.2]
    rfl
  · rfl

theorem survivors_other {c : Node} (h : c.isForm = false) (owed : Nat) (cs : List Node) :
    survivors owed (c :: cs) = survivors owed cs := by
  rw [survivors, h]
  rfl

/-- Only forms count. -/
theorem survivors_filter (owed : Nat) (cs : List Node) :
    survivors owed (cs.filter isForm) = survivors owed cs := by
  induction cs generalizing owed with
  | nil => rfl
  | cons c cs ih =>
    rw [List.filter_cons]
    cases h : c.isForm with
    | true => rw [if_pos rfl, survivors_form h, survivors_form h, ih]
    | false => rw [if_neg Bool.false_ne_true, survivors_other h, ih]

/-- Where no form is, none is left. -/
theorem survivors_none {cs : List Node} (h : cs.any isForm = false) (owed : Nat) :
    survivors owed cs = [] := by
  have hfilter : cs.filter isForm = [] := List.filter_eq_nil_iff.mpr (List.any_eq_false.mp h)
  rw [← survivors_filter, hfilter]
  rfl

/-- If no discard waits, a form leaves itself, unless it is discarded. -/
theorem survivors_zero {n : Node} (h : n.isForm = true) (ns : List Node) :
    survivors 0 (n :: ns) = [n].filter isKept ++ survivors (n.discardDepth - 1) ns := by
  rw [survivors_form h, Nat.zero_add, List.filter_singleton, isKept]
  by_cases hdepth : n.discardDepth = 0
  · simp [hdepth]
  · have hdiscarded : (n.discardDepth == 0) = false := by simpa using hdepth
    simp [hdepth, hdiscarded]

end Node

/-! ## What is left of items that are written out -/

namespace Item

/-- The markers and elements of items, in order. -/
abbrev forms (items : List Item) : List Node := holdings (fun n => [n]) items

theorem forms_nodes {i : Item} (h : i.Made (fun _ => True) fun _ => True) :
    i.nodes.filter Node.isForm = forms [i] := by
  cases h with
  | comment => rfl
  | @element node marker comment form made marked =>
    have hnot : (⟨node, marker, comment⟩ : Item).isComment = false := (Node.isForm_iff.mp form).2
    rw [forms, holdings_element _ hnot]
    rcases marked with rfl | rfl <;> cases comment <;>
      simp [nodes, hnot, holding, core, form, List.filter_cons] <;> rfl

/-- Written out, items have the forms they hold. -/
theorem forms_ungroupFrom {items : List Item}
    (h : ∀ i ∈ items, i.Made (fun _ => True) fun _ => True) (lineOpen : Bool) :
    (ungroupFrom lineOpen items).filter Node.isForm = forms items := by
  induction items generalizing lineOpen with
  | nil => rfl
  | cons i items ih =>
    obtain ⟨hi, hrest⟩ := List.forall_mem_cons.mp h
    have hseparator : (if lineOpen then [i.separator] else []).filter Node.isForm = [] := by
      unfold separator
      cases lineOpen <;> cases i.isComment <;> rfl
    rw [ungroupFrom, List.filter_append, List.filter_append, hseparator, forms_nodes hi, ih hrest,
      List.nil_append, ← holdings_append]
    rfl

/-- If only the last element has discards on top of each other, none waits for the next one. -/
theorem survivors_cores {cs : List (Node × Option String)} (h : Shallow cs)
    (hforms : ∀ c ∈ cs, c.1.isForm = true) :
    Node.survivors 0 (cs.flatMap (holding fun n => [n])) =
      (cs.flatMap (holding fun n => [n])).filter Node.isKept := by
  induction cs with
  | nil => rfl
  | cons c cs ih =>
    obtain ⟨hform, hrest⟩ := List.forall_mem_cons.mp hforms
    have helement : Node.survivors 0 (c.1 :: cs.flatMap (holding fun n => [n])) =
        [c.1].filter Node.isKept ++ (cs.flatMap (holding fun n => [n])).filter Node.isKept := by
      rw [Node.survivors_zero hform]
      by_cases hcs : cs = []
      · subst hcs
        rfl
      · have hone : c.1.discardDepth - 1 = 0 := Nat.sub_eq_zero_of_le (h.head hcs)
        rw [hone, ih h.tail hrest]
    obtain ⟨node, marker⟩ := c
    cases marker with
    | none => exact helement.trans (List.filter_append ..).symm
    | some m =>
      have hmarker : Node.survivors 0 (.atom m :: node :: cs.flatMap (holding fun n => [n])) =
          .atom m :: Node.survivors 0 (node :: cs.flatMap (holding fun n => [n])) := rfl
      exact hmarker.trans (congrArg (Node.atom m :: ·) (helement.trans (List.filter_append ..).symm))

end Item

/-- What is left of settled items that are written out: the forms without discards. -/
theorem survivors_ungroup {items : List Item} (h : Item.Settled items) :
    Node.survivors 0 (Item.ungroup items) = (Item.forms items).filter Node.isKept := by
  rw [← Node.survivors_filter, Item.ungroup, Item.forms_ungroupFrom h.made]
  refine Item.survivors_cores h.shallow fun c hc => ?_
  obtain ⟨i, hi, hnot, rfl⟩ := Item.mem_cores hc
  cases h.made i hi with
  | comment => cases hnot
  | element form => exact form

/-! ## What is left while children are taken in -/

namespace Grouping

/-- The forms so far that are left. -/
def survivors (g : Grouping) : List Node := (g.holdings fun n => [n]).filter Node.isKept

/-- While discards wait, no `&` does, and they wait behind a discarded element. -/
structure Spares (g : Grouping) : Prop where
  marker : g.owed ≠ 0 → g.marker = none
  last : g.owed ≠ 0 → ∃ c cs, Item.cores g.items = c :: cs ∧ c.1.isKept = false

/-- A child leaves waiting what a reader leaves waiting. -/
theorem owed_form {g : Grouping} {c : Node} (hform : c.isForm = true)
    (hc : c = .atom "&" → g.owed = 0) : (g.step c).owed = g.owed + c.discardDepth - 1 := by
  rcases g.step_cases c with ⟨hnoise, -⟩ | ⟨text, rfl, -⟩ | ⟨rfl, -, hs⟩ | ⟨-, -, hs⟩
  · rw [(Node.isForm_iff.mp hform).1] at hnoise
    cases hnoise
  · cases hform
  · rw [hs]
    show g.owed = g.owed + 0 - 1
    rw [hc rfl]
  · rw [hs, owed_addElement]

/-- Trivia and comments leave the discards that wait as they are. -/
theorem owed_other {g : Grouping} {c : Node} (hform : c.isForm = false) :
    (g.step c).owed = g.owed := by
  rcases g.step_cases c with ⟨-, hs⟩ | ⟨text, rfl, hs⟩ | ⟨rfl, -, -⟩ | ⟨h, -, -⟩
  · rw [hs]
  · rw [hs, owed_addComment]
  · cases hform
  · rw [h] at hform
    cases hform

/-- **One child.**  A form is left if it has no discards and none waits; nothing else is. -/
theorem survivors_step (g : Grouping) {c : Node} (hc : c = .atom "&" → g.owed = 0) :
    (g.step c).survivors = g.survivors ++
      if c.isForm = true ∧ c.discardDepth = 0 ∧ g.owed = 0 then [c] else [] := by
  rcases g.step_cases c with ⟨hnoise, hs⟩ | ⟨text, rfl, hs⟩ | ⟨rfl, hm, hs⟩ | ⟨hform, -, hs⟩
  · have hform : c.isForm = false := by simp [Node.isForm, hnoise]
    simp [hs, survivors, hform, holdings]
  · have hform : (Node.comment text).isForm = false := rfl
    simp [hs, survivors, hform, holdings_addComment, holdings_flush]
  · have hkept : (Node.atom "&").isKept = true := rfl
    have hform : (Node.atom "&").isForm = true := rfl
    have hdepth : (Node.atom "&").discardDepth = 0 := rfl
    simp [hs, survivors, holdings, hm, hkept, hform, hdepth, hc rfl]
  · rw [hs, survivors, holdings_addElement _ g hform, List.filter_append, List.filter_singleton]
    refine congrArg (g.survivors ++ ·) ?_
    unfold taken Node.spread
    by_cases hleft : c.discardDepth = 0 ∧ g.owed = 0
    · simp [hform, hleft.1, hleft.2, Node.isKept]
    · have hdepth : c.discardDepth + (if g.owed = 0 then 0 else 1) ≠ 0 := by
        split <;> omega
      have hdiscarded : (Node.discard c.discarded).isKept = false := rfl
      rw [if_neg hdepth, if_neg fun h => hleft h.2, hdiscarded]
      rfl

/-- Taking in a child keeps discards from waiting in front of an `&`, if none waits when the `&`
    comes. -/
theorem Spares.step {g : Grouping} (h : g.Spares) {c : Node} (hc : c = .atom "&" → g.owed = 0) :
    (g.step c).Spares := by
  rcases g.step_cases c with ⟨-, hs⟩ | ⟨text, rfl, hs⟩ | ⟨rfl, -, hs⟩ | ⟨hform, -, hs⟩
  · rw [hs]
    exact ⟨h.marker, h.last⟩
  · have howed := owed_addComment g text
    rw [hs]
    refine ⟨fun hne => ?_, fun hne => ?_⟩
    all_goals rw [howed] at hne
    · rw [marker_addComment, marker_flush]
    · have hflush : g.flushMarker = g := by rw [flushMarker, h.marker hne]
      rw [cores_addComment, hflush]
      exact h.last hne
  · rw [hs]
    exact ⟨fun hne => absurd (hc rfl) hne, fun hne => absurd (hc rfl) hne⟩
  · rw [hs]
    refine ⟨fun _ => rfl, fun hne => ?_⟩
    refine ⟨_, _, cores_addElement g hform, ?_⟩
    have hdepth : c.discardDepth + (if g.owed = 0 then 0 else 1) ≠ 0 := by
      rw [owed_addElement] at hne
      split <;> omega
    rw [taken, Node.spread, if_neg hdepth]
    rfl

/-! ## All children -/

/-- What is left once the items so far are finished. -/
def left (g : Grouping) : List Node := (Item.forms g.finish).filter Node.isKept

/-- Discards are put back behind a discarded element, so nothing more is discarded. -/
theorem left_eq {g : Grouping} (hg : g.Spares) : g.left = g.survivors := by
  by_cases howed : g.owed = 0
  · rw [left, finish, howed, discardFirst_zero, Item.forms, holdings_flushed]
    rfl
  · obtain ⟨c, cs, hcores, hkept⟩ := hg.last howed
    have hput := c.1.isKept_discardTimes howed
    have hforms : Item.forms g.items.reverse = g.holdings fun n => [n] := by
      rw [holdings, hg.marker howed]
      exact (List.append_nil _).symm
    rw [left, finish_eq (hg.marker howed), survivors, ← hforms]
    simp only [Item.forms, Item.holdings, Item.cores_reverse, cores_discardFirst, hcores,
      List.reverse_cons, List.flatMap_append, List.filter_append, List.flatMap_cons,
      List.flatMap_nil, List.append_nil, Item.holding, List.filter_singleton, hkept, hput]
    rfl

/-- Discards that wait behind an `&` at the end are put onto it. -/
theorem left_stray {g : Grouping} (hg : g.Spares) (howed : g.owed ≠ 0) (broken : Bool) :
    left { g with marker := some "&", lineBroken := broken } = g.survivors := by
  have hput := (Node.atom "&").isKept_discardTimes howed
  have hatom : (⟨.atom "&", none, none⟩ : Item).isComment = false := rfl
  rw [left, finish]
  simp only [flushMarker, Item.forms, Item.holdings, Item.cores_reverse, cores_discardFirst,
    Item.cores_cons_element hatom, List.reverse_cons, List.flatMap_append, List.filter_append]
  simp [survivors, holdings, hg.marker howed, Item.holdings, Item.cores_reverse, Item.holding,
    Item.core, hput]

/-- Trivia and comments leave what they find. -/
theorem left_other {g : Grouping} {c : Node} (hform : c.isForm = false) :
    (g.step c).left = g.left := by
  suffices h : Item.cores (g.step c).finish = Item.cores g.finish by
    rw [left, left, Item.forms, Item.holdings, h]
    rfl
  rcases g.step_cases c with ⟨-, hs⟩ | ⟨text, rfl, hs⟩ | ⟨rfl, -, -⟩ | ⟨h, -, -⟩
  · rw [hs, finish_lineBroken g]
  · have hmarker : (g.flushMarker.addComment text).marker = none := by
      rw [marker_addComment, marker_flush]
    rw [hs, finish_eq hmarker, finish, Item.cores_reverse, Item.cores_reverse, cores_discardFirst,
      cores_discardFirst, cores_addComment, owed_addComment]
  · cases hform
  · rw [h] at hform
    cases hform

/-- So do any number of them. -/
theorem left_foldl {cs : List Node} (h : cs.any Node.isForm = false) (g : Grouping) :
    (cs.foldl step g).left = g.left := by
  induction cs generalizing g with
  | nil => rfl
  | cons c cs ih =>
    obtain ⟨hform, hforms⟩ := Bool.or_eq_false_iff.mp h
    rw [List.foldl_cons, ih hforms, left_other hform]

/-- **All children.**  What is left in the end is what was left so far and what a reader is left
    with of the children. -/
theorem survivors_foldl {children : List Node} {g : Grouping} (hg : g.Spares)
    (h : Node.discardsMarker g.owed children = false) :
    (children.foldl step g).left = g.survivors ++ Node.survivors g.owed children := by
  induction children generalizing g with
  | nil => exact (left_eq hg).trans (List.append_nil _).symm
  | cons c cs ih =>
    rw [List.foldl_cons]
    cases hform : c.isForm with
    | true =>
      have hsplit : (c == .atom "&" && g.owed != 0 && cs.any Node.isForm) = false ∧
          Node.discardsMarker (g.owed + c.discardDepth - 1) cs = false := by
        simpa [Node.discardsMarker, hform] using h
      by_cases hstray : c = .atom "&" ∧ g.owed ≠ 0
      · -- No form is behind the `&`, so it waits to the end.
        obtain ⟨rfl, howed⟩ := hstray
        have hnone : cs.any Node.isForm = false := by simpa [howed] using hsplit.1
        have hstep : g.step (.atom "&") = { g with marker := some "&", lineBroken := false } := by
          simp [step, hg.marker howed]
        rw [hstep, left_foldl hnone, left_stray hg howed, Node.survivors_form rfl,
          Node.survivors_none hnone, if_neg fun hzero => howed hzero.2]
        simp
      · -- Any other form takes the discards that wait, or is left.
        have hc : c = .atom "&" → g.owed = 0 := by
          intro heq
          by_contra howed
          exact hstray ⟨heq, howed⟩
        rw [ih (hg.step hc) (by rw [owed_form hform hc]; exact hsplit.2), survivors_step g hc,
          owed_form hform hc, Node.survivors_form hform, hform, List.append_assoc]
        simp only [true_and]
    | false =>
      have hc : c = .atom "&" → g.owed = 0 := by
        rintro rfl
        cases hform
      have hrest : Node.discardsMarker g.owed cs = false := by
        simpa [Node.discardsMarker, hform] using h
      rw [ih (hg.step hc) (by rw [owed_other hform]; exact hrest), survivors_step g hc,
        owed_other hform, Node.survivors_other hform, hform]
      simp

end Grouping

/-- **Grouping keeps what is discarded.**  If no discard waits in front of an `&` that has a form
    behind it, the same forms are left of the children and of their items when these are written
    out. -/
theorem survivors_group {children : List Node} (h : Node.discardsMarker 0 children = false) :
    Node.survivors 0 (Item.ungroup (Item.group children)) = Node.survivors 0 children := by
  have hstart : Grouping.Spares {} := ⟨fun h => absurd rfl h, fun h => absurd rfl h⟩
  rw [survivors_ungroup (settled_group children)]
  exact Grouping.survivors_foldl hstart h

/-- Discards on top of each other, another one among the forms they discard, a comment in between,
    an `&` behind the last of them, and one more at the end, in front of which a discard waits. -/
theorem survivors_group_stacked :
    let children : List Node :=
      [.discard (.discard (.atom "a")), .space " ", .discard (.atom "b"), .comment ";c",
        .newline "\n", .atom "d", .atom "&", .atom "e", .discard (.discard (.atom "f")), .atom "&"]
    Node.discardsMarker 0 children = false ∧
      Node.survivors 0 (Item.ungroup (Item.group children)) = Node.survivors 0 children :=
  ⟨by decide, survivors_group (by decide)⟩

/-- An `&` passes its discard on to the element behind it, and is left in its place. -/
example :
    let children : List Node := [.discard (.discard (.atom "x")), .atom "&", .atom "y"]
    Node.survivors 0 children = [.atom "y"] ∧
      Node.survivors 0 (Item.ungroup (Item.group children)) = [.atom "&"] := by
  decide

end CljTidy
