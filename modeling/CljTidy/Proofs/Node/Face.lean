/-
  Nodes from outside.

  The face of a node is what can be seen without looking into it: the text of a leaf, the bracket of
  a collection, the marks in front.  Of a comment only that it is one.  Laying out a node does not
  change its face, and whatever decides how a collection is laid out looks at the faces of its
  items only.
-/
import CljTidy.Item.Group
import CljTidy.Proofs.Node.Pieces

namespace CljTidy

/-- A mark in front of a form, as it reads: an unquote in front of a dereference is one mark. -/
def Mark.over : Mark → Node → Node
  | .unquote, .wrap .deref n => .wrap .unquoteSplicing n
  | m, n => .wrap m n

namespace Node

/-! ## Shapes -/

/-- Induction over a tree. -/
theorem induction {P : Node → Prop} (leaf : ∀ kind text, P (.leaf kind text))
    (branch : ∀ b cs, (∀ c ∈ cs, P c) → P (.branch b cs)) (wrap : ∀ m n, P n → P (.wrap m n))
    (annotated : ∀ m t, P m → P t → P (.annotated m t)) (unknown : P .unknown) (n : Node) : P n :=
  Node.rec (motive_1 := P) (motive_2 := fun cs => ∀ c ∈ cs, P c) leaf branch wrap annotated unknown
    (by rintro _ ⟨⟩) (fun _ _ hn hns => List.forall_mem_cons.mpr ⟨hn, hns⟩) n

/-- A form is what is neither trivia nor a comment. -/
theorem isForm_iff {n : Node} : n.isForm = true ↔ n.isNoise = false ∧ n.isComment = false := by
  simp [isForm]

/-- So it is no line break, either. -/
theorem isNewline_of_form {n : Node} (h : n.isForm = true) : n.isNewline = false := by
  cases n with
  | leaf kind text => cases kind <;> first | rfl | cases h
  | _ => rfl

/-- A node is trivia, a comment or a form. -/
theorem noise_or_comment_or_form (n : Node) :
    n.isNoise = true ∨ (∃ text, n = .comment text) ∨ n.isForm = true := by
  cases n with
  | leaf kind text =>
    cases kind with
    | comment => exact .inr (.inl ⟨text, rfl⟩)
    | atom => exact .inr (.inr rfl)
    | _ => exact .inl rfl
  | _ => exact .inr (.inr rfl)

/-- Trivia is a leaf, -/
theorem leaf_of_noise {n : Node} (h : n.isNoise = true) : ∃ kind text, n = .leaf kind text := by
  cases n with
  | leaf kind text => exact ⟨kind, text, rfl⟩
  | _ => cases h

/-- and so is a comment. -/
theorem leaf_of_not_form {n : Node} (h : n.isForm = false) : ∃ kind text, n = .leaf kind text := by
  cases n with
  | leaf kind text => exact ⟨kind, text, rfl⟩
  | _ => cases h

/-- The two walks over children are those of the library. -/
theorem anyContainsComment_eq (ns : List Node) :
    anyContainsComment ns = ns.any containsComment := by
  induction ns with
  | nil => rfl
  | cons n ns ih => rw [anyContainsComment, ih, List.any_cons]

theorem allKnown_eq (ns : List Node) : allKnown ns = ns.all isKnown := by
  induction ns with
  | nil => rfl
  | cons n ns ih => rw [allKnown, ih, List.all_cons]

/-- A comment has a text, -/
theorem eq_comment {n : Node} (h : n.isComment = true) : ∃ text, n = .comment text := by
  rcases n.noise_or_comment_or_form with hn | hn | hn
  · obtain ⟨kind, text, rfl⟩ := leaf_of_noise hn
    cases kind with
    | comment => exact ⟨text, rfl⟩
    | _ => cases h
  · exact hn
  · rw [(isForm_iff.mp hn).2] at h
    cases h

/-- and a list has children. -/
theorem eq_list {n : Node} (h : n.isList = true) : ∃ cs, n = .list cs := by
  cases n with
  | branch b cs =>
    cases b with
    | list => exact ⟨cs, rfl⟩
    | _ => cases h
  | _ => cases h

/-! ## Faces -/

/-- The node from outside. -/
def face : Node → Node
  | .comment _ => .comment ""
  | .leaf kind text => .leaf kind text
  | .branch b _ => .branch b []
  | .wrap m n => m.over n.face
  | .annotated _ _ => .annotated .unknown .unknown
  | .unknown => .unknown

/-- The face of a wrap is its mark over the face of its form, -/
theorem face_wrap (m : Mark) (n : Node) : (wrap m n).face = m.over n.face := rfl

/-- A mark over a form is a wrap. -/
theorem over_eq_wrap (m : Mark) (n : Node) : ∃ m' n', m.over n = .wrap m' n' := by
  unfold Mark.over
  split
  · exact ⟨_, _, rfl⟩
  · exact ⟨_, _, rfl⟩

/-- also if the mark joins one in front of it. -/
theorem face_over (m : Mark) (n : Node) : (m.over n).face = m.over n.face := by
  unfold Mark.over
  split
  · rfl
  · rename_i m n h
    rw [face_wrap]
    rfl

/-- An atom is seen as a whole. -/
theorem atom_of_face {n : Node} {text : String} (h : n.face = .atom text) : n = .atom text := by
  cases n with
  | leaf kind text => cases kind <;> first | exact h | cases h
  | wrap m n =>
    obtain ⟨m', n', hw⟩ := over_eq_wrap m n.face
    rw [face_wrap, hw] at h
    cases h
  | _ => cases h

/-- A dereference can be told from outside. -/
theorem deref_of_face {n x : Node} (h : n.face = (Node.wrap .deref x).face) :
    ∃ y, n = .wrap .deref y := by
  replace h : n.face = .wrap .deref x.face := h
  cases n with
  | wrap m y =>
    rw [face_wrap] at h
    unfold Mark.over at h
    split at h
    · cases h
    · injection h with hm
      exact ⟨y, by rw [hm]⟩
  | leaf kind text => cases kind <;> cases h
  | _ => cases h

/-- A view that sees leaves and brackets, but no wraps. -/
theorem view_face {view : Node → Bool}
    (hleaf : ∀ kind text, view (leaf kind text).face = view (.leaf kind text))
    (hbranch : ∀ b cs, view (.branch b []) = view (.branch b cs))
    (hwrap : ∀ m n, view (.wrap m n) = false) (hannotated : ∀ m t, view (.annotated m t) = false)
    (n : Node) : view n.face = view n := by
  cases n with
  | leaf kind text => exact hleaf kind text
  | branch b cs => exact hbranch b cs
  | wrap m n =>
    obtain ⟨m', n', h⟩ := over_eq_wrap m n.face
    rw [face_wrap, h, hwrap, hwrap]
  | annotated m t => exact (hannotated _ _).trans (hannotated m t).symm
  | unknown => rfl

/-- The views that do not look into a node are the same from outside. -/
@[simp] theorem isComment_face (n : Node) : n.face.isComment = n.isComment :=
  view_face (fun kind _ => by cases kind <;> rfl) (fun _ _ => rfl) (fun _ _ => rfl)
    (fun _ _ => rfl) n

@[simp] theorem isNoise_face (n : Node) : n.face.isNoise = n.isNoise :=
  view_face (fun kind _ => by cases kind <;> rfl) (fun _ _ => rfl) (fun _ _ => rfl)
    (fun _ _ => rfl) n

/-- Whether a node is a form can be told from outside. -/
theorem isForm_of_face {m n : Node} (h : m.face = n.face) : m.isForm = n.isForm := by
  simp only [isForm, ← isNoise_face m, ← isComment_face m, h, isNoise_face, isComment_face]

@[simp] theorem isList_face (n : Node) : n.face.isList = n.isList :=
  view_face (fun kind _ => by cases kind <;> rfl) (fun b _ => by cases b <;> rfl) (fun _ _ => rfl)
    (fun _ _ => rfl) n

@[simp] theorem isVector_face (n : Node) : n.face.isVector = n.isVector :=
  view_face (fun kind _ => by cases kind <;> rfl) (fun b _ => by cases b <;> rfl) (fun _ _ => rfl)
    (fun _ _ => rfl) n

@[simp] theorem isMap_face (n : Node) : n.face.isMap = n.isMap :=
  view_face (fun kind _ => by cases kind <;> rfl) (fun b _ => by cases b <;> rfl) (fun _ _ => rfl)
    (fun _ _ => rfl) n

/-- Whether a mark takes a form can be told from outside. -/
theorem accepts_of_face {mark : Mark} {m n : Node} (h : m.face = n.face) :
    Reading.accepts mark m = Reading.accepts mark n := by
  have hmap : m.isMap = n.isMap := by rw [← isMap_face, h, isMap_face]
  cases mark <;> first | rfl | exact hmap

@[simp] theorem isString_face (n : Node) : n.face.isString = n.isString :=
  view_face (fun kind _ => by cases kind <;> rfl) (fun _ _ => rfl) (fun _ _ => rfl)
    (fun _ _ => rfl) n

/-- A mark that joins another is no discard. -/
theorem discardDepth_over (m : Mark) (n : Node) :
    (m.over n).discardDepth = (Node.wrap m n).discardDepth := by
  unfold Mark.over
  split <;> rfl

/-- So the number of discards can be seen from outside. -/
@[simp] theorem discardDepth_face (n : Node) : n.face.discardDepth = n.discardDepth := by
  induction n using face.induct with
  | case1 => rfl
  | case2 kind text h => cases kind <;> rfl
  | case3 => rfl
  | case4 m n ih =>
    rw [face_wrap, discardDepth_over]
    cases m <;> simp [discardDepth, ih]
  | case5 => rfl
  | case6 => rfl

end Node

/-! ## Items from outside -/

namespace Item

/-- The item from outside, without its trailing comment. -/
def face (i : Item) : Item := ⟨i.element.face, i.marker, none⟩

/-- An item from outside is a comment if the item is one. -/
@[simp] theorem isComment_face (i : Item) : i.face.isComment = i.isComment :=
  Node.isComment_face i.element

/-- The faces of the items that are not comments. -/
def faces (items : List Item) : List Item := (elements items).map face

/-- Leaving the comments out twice is leaving them out once. -/
@[simp] theorem elements_elements (items : List Item) :
    elements (elements items) = elements items := by
  simp [elements]

/-- It does not matter whether comments are left out before or after. -/
theorem elements_map_face (items : List Item) :
    elements (items.map face) = (elements items).map face := by
  simp only [elements, List.filter_map]
  congr 1
  apply List.filter_congr
  intro i _
  simp

/-- Faces are of elements only. -/
@[simp] theorem elements_faces (items : List Item) : elements (faces items) = faces items := by
  rw [faces, elements_map_face, elements_elements]

/-- The head is the first item that is not a comment, and the others are behind it. -/
theorem splitHead_elements {items leading rest : List Item} {head : Option Item}
    (h : splitHead items = (leading, head, rest)) :
    (elements items).head? = head ∧ (elements items).tail = elements rest := by
  simp only [splitHead, Prod.mk.injEq] at h
  obtain ⟨-, rfl, rfl⟩ := h
  induction items with
  | nil => exact ⟨rfl, rfl⟩
  | cons i items ih =>
    cases hi : i.isComment with
    | true => simpa [elements, hi] using ih
    | false => simp [elements, hi]

/-- With no comments among them, the head is the first and the others are the rest. -/
theorem splitHead_faces (items : List Item) :
    splitHead (faces items) = ([], (faces items).head?, (faces items).tail) := by
  cases hf : faces items with
  | nil => rfl
  | cons i is =>
    have hi : i.isComment = false := by
      have hmem : i ∈ elements (faces items) := by rw [elements_faces, hf]; simp
      simpa [elements] using (List.mem_filter.mp hmem).2
    simp [splitHead, hi]

end Item

end CljTidy
