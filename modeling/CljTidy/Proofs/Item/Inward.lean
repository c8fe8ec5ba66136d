/-
  Changes inside elements.

  A map on nodes is inward if it cannot be seen from outside: leaves and faces stay as they are, and
  discards are passed through.  Grouping and pairing look at nodes from outside only, so an inward
  map on the children is the same map on the elements of the items (`Inward.group`) and of the
  records (`Inward.ofItems`).
-/
import CljTidy.Proofs.Item.Grouping
import CljTidy.Proofs.Node.Face

namespace CljTidy

/-- The map changes nodes inside only. -/
structure Inward (f : Node → Node) : Prop where
  leaf : ∀ kind text, f (.leaf kind text) = .leaf kind text
  face : ∀ n, (f n).face = n.face
  discard : ∀ n, f (.discard n) = .discard (f n)

/-- The item with its element changed. -/
def Item.onto (f : Node → Node) (i : Item) : Item := { i with element := f i.element }

/-! ## Maps that spare comments -/

/-- The map leaves comments alone and makes none. -/
structure SparesComments (f : Node → Node) : Prop where
  comment : ∀ text, f (.comment text) = .comment text
  isComment : ∀ n : Node, (f n).isComment = n.isComment

namespace SparesComments

variable {f : Node → Node} (hf : SparesComments f)

include hf

/-- An item is a comment if it was one. -/
theorem isComment_onto (i : Item) : (i.onto f).isComment = i.isComment := hf.isComment i.element

/-- A comment stays as it is. -/
theorem onto_comment {i : Item} (hi : i.isComment = true) : i.onto f = i := by
  obtain ⟨element, marker, comment⟩ := i
  obtain ⟨text, rfl⟩ := Node.eq_comment hi
  rw [Item.onto, hf.comment]

/-- The elements are the changed ones. -/
theorem elements (items : List Item) :
    Item.elements (items.map (Item.onto f)) = (Item.elements items).map (Item.onto f) := by
  simp only [Item.elements, List.filter_map]
  congr 1
  exact List.filter_congr fun i _ => congrArg (! ·) (hf.isComment_onto i)

end SparesComments

/-! ## Maps inside nodes -/

namespace Inward

variable {f : Node → Node} (hf : Inward f)

include hf

/-- A node stays a comment, -/
theorem isComment (n : Node) : (f n).isComment = n.isComment := by
  rw [← Node.isComment_face, hf.face, Node.isComment_face]

/-- trivia, -/
theorem isNoise (n : Node) : (f n).isNoise = n.isNoise := by
  rw [← Node.isNoise_face, hf.face, Node.isNoise_face]

/-- or a form, -/
theorem isForm (n : Node) : (f n).isForm = n.isForm := Node.isForm_of_face (hf.face n)

/-- under as many discards as before. -/
theorem discardDepth (n : Node) : (f n).discardDepth = n.discardDepth := by
  rw [← Node.discardDepth_face, hf.face, Node.discardDepth_face]

/-- Trivia stays as it is. -/
theorem of_noise {n : Node} (hn : n.isNoise = true) : f n = n := by
  obtain ⟨kind, text, rfl⟩ := Node.leaf_of_noise hn
  exact hf.leaf kind text

/-- An inward map spares comments. -/
theorem spares : SparesComments f := ⟨hf.leaf .comment, hf.isComment⟩

theorem isComment_onto (i : Item) : (i.onto f).isComment = i.isComment := hf.isComment i.element

theorem onto_comment {i : Item} (hi : i.isComment = true) : i.onto f = i :=
  hf.spares.onto_comment hi

/-- It makes no atom and changes none. -/
theorem eq_atom {n : Node} {text : String} : f n = .atom text ↔ n = .atom text := by
  constructor
  · intro h
    have hface := hf.face n
    rw [h] at hface
    exact Node.atom_of_face hface.symm
  · rintro rfl
    exact hf.leaf _ _

/-! ## Discards -/

/-- What is under the discards is changed in its place, -/
theorem discarded (n : Node) : (f n).discarded = f n.discarded := by
  induction n using Node.discarded.induct with
  | case1 child ih => rw [hf.discard, Node.discarded, ih, Node.discarded]
  | case2 n hn =>
    have hdepth : (f n).discardDepth = 0 := by rw [hf.discardDepth, Node.discardDepth_eq_zero hn]
    have hfn : ∀ m, f n = .discard m → False := by
      intro m hm
      rw [hm] at hdepth
      cases hdepth
    rw [Node.discarded, Node.discarded]
    · exact hn
    · exact hfn

/-- and so is the element that the node becomes. -/
theorem spread (depth : Nat) (n : Node) : Node.spread depth (f n) = f (Node.spread depth n) := by
  unfold Node.spread
  split
  · rfl
  · rw [hf.discarded, hf.discard]

/-- More discards in front do not matter, either. -/
theorem discardTimes (n : Node) (k : Nat) : (f n).discardTimes k = f (n.discardTimes k) := by
  induction k with
  | zero => rfl
  | succ k ih => rw [Node.discardTimes, ih, Node.discardTimes, hf.discard]

/-! ## Grouping -/

/-- An `&` stays as it is. -/
theorem flushMarker (g : Grouping) :
    Grouping.flushMarker { g with items := g.items.map (Item.onto f) } =
      { g.flushMarker with items := g.flushMarker.items.map (Item.onto f) } := by
  obtain ⟨items, marker, owed, broken⟩ := g
  cases marker with
  | none => rfl
  | some m => simp [Grouping.flushMarker, Item.onto, hf.leaf]

/-- A comment goes to the same place. -/
theorem addComment (g : Grouping) (text : String) :
    Grouping.addComment { g with items := g.items.map (Item.onto f) } text =
      { g.addComment text with items := (g.addComment text).items.map (Item.onto f) } := by
  obtain ⟨items, marker, owed, broken⟩ := g
  cases items with
  | nil => simp [Grouping.addComment, Item.onto, hf.leaf]
  | cons i items =>
    have hcomment : (i.onto f).comment = i.comment := rfl
    simp only [Grouping.addComment, List.map_cons, hf.isComment_onto, hcomment]
    by_cases h : (!broken && !i.isComment && i.comment.isNone) = true
    · simp only [if_pos h, List.map_cons]
      rfl
    · simp only [if_neg h, List.map_cons, Item.onto, hf.leaf]

/-- An element is added in the same way, -/
theorem addElement (g : Grouping) (n : Node) :
    Grouping.addElement { g with items := g.items.map (Item.onto f) } (f n) =
      { g.addElement n with items := (g.addElement n).items.map (Item.onto f) } := by
  have hspread := hf.spread (n.discardDepth + if g.owed = 0 then 0 else 1) n
  simp only [Node.spread] at hspread
  simp only [Grouping.addElement, hf.discardDepth, hspread, List.map_cons, Item.onto]

/-- so one child adds the same, with its element changed. -/
theorem step (g : Grouping) (n : Node) :
    Grouping.step { g with items := g.items.map (Item.onto f) } (f n) =
      { g.step n with items := (g.step n).items.map (Item.onto f) } := by
  rcases g.step_cases n with ⟨hn, hs⟩ | ⟨text, rfl, hs⟩ | ⟨rfl, hm, hs⟩ | ⟨hform, hmarker, hs⟩
  · rw [hf.of_noise hn, hs, Grouping.step_noise hn]
  · rw [hs, hf.leaf, ← hf.addComment, ← hf.flushMarker]
    rfl
  · rw [hs, hf.leaf]
    simp [Grouping.step, hm]
  · have hamp : f n = .atom "&" → g.marker ≠ none := fun h => hmarker (hf.eq_atom.mp h)
    rw [hs, ← hf.addElement]
    exact Grouping.step_element ((hf.isForm n).trans hform) hamp

/-- Discards that are left over go onto the same element. -/
theorem discardFirst (k : Nat) (items : List Item) :
    Grouping.discardFirst k (items.map (Item.onto f)) =
      (Grouping.discardFirst k items).map (Item.onto f) := by
  induction items with
  | nil => rfl
  | cons i items ih =>
    simp only [List.map_cons, Grouping.discardFirst, hf.isComment_onto]
    split
    · rw [ih, List.map_cons]
    · simp only [List.map_cons, Item.onto, hf.discardTimes]

/-- **Grouping looks at children from outside only.** -/
theorem group (children : List Node) :
    Item.group (children.map f) = (Item.group children).map (Item.onto f) := by
  have hfold : ∀ (cs : List Node) (g : Grouping),
      (cs.map f).foldl Grouping.step { g with items := g.items.map (Item.onto f) } =
        { cs.foldl Grouping.step g with
          items := (cs.foldl Grouping.step g).items.map (Item.onto f) } := by
    intro cs
    induction cs with
    | nil => exact fun g => rfl
    | cons c cs ih =>
      intro g
      rw [List.map_cons, List.foldl_cons, hf.step, ih, List.foldl_cons]
  have hstart := hfold children {}
  simp only [List.map_nil] at hstart
  simp only [Item.group, Grouping.finish, hstart, hf.flushMarker, hf.discardFirst,
    List.map_reverse]

/-! ## Heads -/

theorem elements (items : List Item) :
    Item.elements (items.map (Item.onto f)) = (Item.elements items).map (Item.onto f) :=
  hf.spares.elements items

/-- The head is the same item. -/
theorem splitHead {items leading rest : List Item} {head : Option Item}
    (h : Item.splitHead items = (leading, head, rest)) :
    Item.splitHead (items.map (Item.onto f)) =
      (leading, head.map (Item.onto f), rest.map (Item.onto f)) := by
  have hcomment : Item.isComment ∘ Item.onto f = Item.isComment := funext hf.isComment_onto
  have hsame : leading.map (Item.onto f) = leading := by
    conv => rhs; rw [← List.map_id leading]
    exact List.map_congr_left fun i hi => hf.onto_comment ((Item.splitHead_spec h).1 i hi)
  simp only [Item.splitHead, Prod.mk.injEq] at h
  obtain ⟨rfl, rfl, rfl⟩ := h
  simp only [Item.splitHead, List.takeWhile_map, List.dropWhile_map, hcomment, hsame,
    List.head?_map, List.map_tail]

/-- The faces of items can be seen from outside. -/
theorem faces (items : List Item) :
    Item.faces (items.map (Item.onto f)) = Item.faces items := by
  rw [Item.faces, hf.elements, List.map_map, Item.faces]
  refine List.map_congr_left fun i _ => ?_
  simp [Item.face, Item.onto, hf.face]

/-! ## Records -/

end Inward

/-- The record with its elements changed. -/
def Record.onto (f : Node → Node) : Record → Record
  | .pair key value => .pair (key.onto f) (value.onto f)
  | .comment text => .comment text
  | .orphan i => .orphan (i.onto f)

/-- Induction follows pairing; what a key holds are comments, which stay as they are. -/
theorem Inward.pairFrom {f : Node → Node} (hf : Inward f) (items : List Item)
    (waiting : Option (Item × List Record))
    (h : ∀ w ∈ waiting, ∀ r ∈ w.2, ∃ text, r = .comment text) :
    Record.pairFrom (waiting.map fun w => (w.1.onto f, w.2)) (items.map (Item.onto f)) =
      (Record.pairFrom waiting items).map (Record.onto f) := by
  -- What is held are comments, in which nothing changes.
  have hheld : ∀ held : List Record, (∀ r ∈ held, ∃ text, r = .comment text) →
      held.map (Record.onto f) = held := by
    intro held hheld
    conv => rhs; rw [← List.map_id held]
    refine List.map_congr_left fun r hr => ?_
    obtain ⟨text, rfl⟩ := hheld r hr
    rfl
  fun_induction Record.pairFrom waiting items with
  | case1 => rfl
  | case2 key held =>
    simp only [Option.map_some, List.map_nil, Record.pairFrom, List.map_cons, Record.onto,
      hheld held (h _ rfl)]
  | case3 i items hi ih =>
    have hrest := ih (by simp)
    simp only [Option.map_none] at hrest
    simp only [Option.map_none, List.map_cons, Record.pairFrom, hf.onto_comment hi, hi, if_true,
      hrest, Record.onto]
  | case4 i items hi ih =>
    have hrest := ih (by simp)
    have hi' : ¬ (i.onto f).isComment = true := by rwa [hf.isComment_onto]
    simp only [Option.map_none, List.map_cons, Record.pairFrom, if_neg hi']
    exact hrest
  -- The comment is held with the others.
  | case5 key held i items hi ih =>
    have hrest := ih (by
      rintro w ⟨⟩ r hr
      rcases List.mem_append.mp hr with hr | hr
      · exact h _ rfl r hr
      · exact ⟨_, List.mem_singleton.mp hr⟩)
    simp only [Option.map_some, List.map_cons, Record.pairFrom, hf.onto_comment hi, hi, if_true]
    exact hrest
  -- The comment behind the key does not change either.
  | case6 key held i items hi ih =>
    have hrest := ih (by simp)
    simp only [Option.map_none] at hrest
    have hi' : ¬ (i.onto f).isComment = true := by rwa [hf.isComment_onto]
    have htrailing : (Record.trailing key).map (Record.onto f) = Record.trailing (key.onto f) := by
      unfold Record.trailing Item.onto
      cases key.comment <;> rfl
    simp only [Option.map_some, List.map_cons, Record.pairFrom, if_neg hi', List.map_append,
      htrailing, hheld held (h _ rfl), hrest]
    rfl

/-- Pairing looks at items from outside only. -/
theorem Inward.ofItems {f : Node → Node} (hf : Inward f) (items : List Item) :
    Record.ofItems (items.map (Item.onto f)) = (Record.ofItems items).map (Record.onto f) :=
  hf.pairFrom items none (by simp)

end CljTidy
