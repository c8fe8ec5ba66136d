/-
  Trees that lack something.

  Some laws hold of trees only in which a certain kind of node occurs nowhere: a namespace
  declaration, discards on top of each other, an unquote right in front of a dereference, an `&`
  with a comment behind it, a line feed inside a text, a node that reading does not build.
  `Node.lacks` says that a kind of node occurs nowhere in a tree.
-/
import CljTidy.Proofs.Node.Face

namespace CljTidy

namespace Node

/-! ## Kinds of nodes -/

/-- A list headed by the plain symbol `ns`. -/
def declaresNamespace : Node → Bool
  | .list children =>
      (Item.splitHead (Item.group children)).2.1.any fun head =>
        head.element == .atom "ns" && head.marker == none
  | _ => false

/-- A discard on top of another one. -/
def stacksDiscards : Node → Bool
  | .discard (.discard _) => true
  | _ => false

/-- An unquote right in front of a dereference. -/
def unquotesDeref : Node → Bool
  | .wrap .unquote (.wrap .deref _) => true
  | _ => false

/-- Among the nodes there is an `&` with a comment next, trivia aside. -/
def markerDangles : List Node → Bool
  | [] => false
  | node :: nodes =>
      (node == .atom "&" && (nodes.dropWhile isNoise).head?.any isComment) || markerDangles nodes

/-- A branch in which an `&` has a comment next. -/
def danglesMarker : Node → Bool
  | .branch _ children => markerDangles children
  | _ => false

/-- A node that has a line feed in its own text: in an atom, a comment, a tag or a namespace. -/
def breaksLine : Node → Bool
  | atom text => text.toList.contains '\n'
  | comment text => text.toList.contains '\n'
  | .wrap (.tagged tag) _ => tag.toList.contains '\n'
  | .wrap (.namespaced ns) _ => ns.toList.contains '\n'
  | _ => false

/-- A node that reading does not build inside a tree: a document or a fragment, a mark or metadata
    over trivia or comments, or a node that nothing is known about. -/
def misshapen : Node → Bool
  | .leaf _ _ => false
  | .branch bracket _ => !bracket.isCollection
  | .wrap _ child => !child.isForm
  | .annotated metadata target => !(metadata.isForm && target.isForm)
  | .unknown => true

/-! ## Everywhere in a tree -/

mutual

/-- No node of the tree is of the kind. -/
def lacks (kind : Node → Bool) : Node → Bool
  | .leaf k text => !kind (.leaf k text)
  | .branch b children => !kind (.branch b children) && allLack kind children
  | .wrap mark child => !kind (.wrap mark child) && child.lacks kind
  | .annotated metadata target =>
      !kind (.annotated metadata target) && (metadata.lacks kind && target.lacks kind)
  | .unknown => !kind .unknown

/-- No node of the trees is of the kind. -/
def allLack (kind : Node → Bool) : List Node → Bool
  | [] => true
  | node :: nodes => node.lacks kind && allLack kind nodes

end

/-- The tree has the shape that reading builds: a document only at its root. -/
def wellShaped : Node → Bool
  | .document children => allLack misshapen children
  | node => node.lacks misshapen

variable {kind : Node → Bool}

/-- Trees lack a kind if each of them does. -/
theorem allLack_iff {nodes : List Node} :
    allLack kind nodes = true ↔ ∀ n ∈ nodes, n.lacks kind = true := by
  induction nodes with
  | nil => simp [allLack]
  | cons n nodes ih => rw [allLack, Bool.and_eq_true, ih, List.forall_mem_cons]

theorem lacks_leaf {k : LeafKind} {text : String} :
    (Node.leaf k text).lacks kind = true ↔ kind (.leaf k text) = false := by
  show (!kind (.leaf k text)) = true ↔ _
  simp

theorem lacks_unknown : Node.unknown.lacks kind = true ↔ kind .unknown = false := by
  show (!kind .unknown) = true ↔ _
  simp

/-- A branch lacks a kind if it is not of it and its children lack it. -/
theorem lacks_branch {b : Bracket} {children : List Node} :
    (Node.branch b children).lacks kind = true ↔
      kind (.branch b children) = false ∧ ∀ n ∈ children, n.lacks kind = true := by
  show (!kind (.branch b children) && allLack kind children) = true ↔ _
  simp [allLack_iff]

theorem lacks_wrap {mark : Mark} {child : Node} :
    (Node.wrap mark child).lacks kind = true ↔
      kind (.wrap mark child) = false ∧ child.lacks kind = true := by
  show (!kind (.wrap mark child) && child.lacks kind) = true ↔ _
  simp

theorem lacks_annotated {metadata target : Node} :
    (Node.annotated metadata target).lacks kind = true ↔
      kind (.annotated metadata target) = false ∧ metadata.lacks kind = true ∧
        target.lacks kind = true := by
  show (!kind (.annotated metadata target) && (metadata.lacks kind && target.lacks kind)) = true ↔ _
  simp

/-- Either the root is a document over well-shaped children, or nothing in the tree is one. -/
theorem wellShaped_cases {n : Node} (h : n.wellShaped = true) :
    (∃ children, n = .document children ∧ ∀ c ∈ children, c.lacks misshapen = true) ∨
      n.lacks misshapen = true := by
  unfold wellShaped at h
  split at h
  · rename_i children
    exact .inl ⟨children, rfl, allLack_iff.mp h⟩
  · exact .inr h

/-- What no node is of is lacking everywhere. -/
theorem lacks_of_none {kind : Node → Bool} (h : ∀ n, kind n = false) (n : Node) :
    n.lacks kind = true := by
  induction n using Node.induction with
  | leaf k text => exact lacks_leaf.mpr (h _)
  | branch b cs ih => exact lacks_branch.mpr ⟨h _, ih⟩
  | wrap m n ih => exact lacks_wrap.mpr ⟨h _, ih⟩
  | annotated m t ihm iht => exact lacks_annotated.mpr ⟨h _, ihm, iht⟩
  | unknown => exact lacks_unknown.mpr (h _)

/-- Less is lacking if more is. -/
theorem lacks_mono {kind kind' : Node → Bool} (h : ∀ n, kind n = false → kind' n = false)
    {n : Node} (hn : n.lacks kind = true) : n.lacks kind' = true := by
  induction n using Node.induction with
  | leaf k text => exact lacks_leaf.mpr (h _ (lacks_leaf.mp hn))
  | branch b cs ih =>
    obtain ⟨hkind, hcs⟩ := lacks_branch.mp hn
    exact lacks_branch.mpr ⟨h _ hkind, fun c hc => ih c hc (hcs c hc)⟩
  | wrap m n ih =>
    obtain ⟨hkind, hchild⟩ := lacks_wrap.mp hn
    exact lacks_wrap.mpr ⟨h _ hkind, ih hchild⟩
  | annotated m t ihm iht =>
    obtain ⟨hkind, hm, ht⟩ := lacks_annotated.mp hn
    exact lacks_annotated.mpr ⟨h _ hkind, ihm hm, iht ht⟩
  | unknown => exact lacks_unknown.mpr (h _ (lacks_unknown.mp hn))

/-- Two kinds are lacking if each of them is. -/
theorem lacks_or {kind kind' : Node → Bool} {n : Node} (h : n.lacks kind = true)
    (h' : n.lacks kind' = true) : n.lacks (fun m => kind m || kind' m) = true := by
  induction n using Node.induction with
  | leaf k text =>
    exact lacks_leaf.mpr (by rw [lacks_leaf.mp h, lacks_leaf.mp h', Bool.or_self])
  | branch b cs ih =>
    obtain ⟨hkind, hcs⟩ := lacks_branch.mp h
    obtain ⟨hkind', hcs'⟩ := lacks_branch.mp h'
    exact lacks_branch.mpr ⟨by rw [hkind, hkind', Bool.or_self],
      fun c hc => ih c hc (hcs c hc) (hcs' c hc)⟩
  | wrap m n ih =>
    obtain ⟨hkind, hn⟩ := lacks_wrap.mp h
    obtain ⟨hkind', hn'⟩ := lacks_wrap.mp h'
    exact lacks_wrap.mpr ⟨by rw [hkind, hkind', Bool.or_self], ih hn hn'⟩
  | annotated m t ihm iht =>
    obtain ⟨hkind, hm, ht⟩ := lacks_annotated.mp h
    obtain ⟨hkind', hm', ht'⟩ := lacks_annotated.mp h'
    exact lacks_annotated.mpr ⟨by rw [hkind, hkind', Bool.or_self], ihm hm hm', iht ht ht'⟩
  | unknown =>
    exact lacks_unknown.mpr (by rw [lacks_unknown.mp h, lacks_unknown.mp h', Bool.or_self])

/-! ## Marks over forms -/

/-- A mark over brackets is read as it is written. -/
theorem over_branch (m : Mark) (b : Bracket) (cs : List Node) :
    m.over (.branch b cs) = .wrap m (.branch b cs) := by
  cases m <;> rfl

/-- A mark over a form: an unquote over a dereference is one mark, and nothing else happens. -/
theorem over_cases (m : Mark) (n : Node) :
    (m = .unquote ∧ ∃ x, n = .wrap .deref x ∧ m.over n = .wrap .unquoteSplicing x) ∨
      (m.over n = .wrap m n ∧ unquotesDeref (.wrap m n) = false) := by
  unfold Mark.over
  split
  · exact .inl ⟨rfl, _, rfl, rfl⟩
  · rename_i m n h
    refine .inr ⟨rfl, ?_⟩
    unfold unquotesDeref
    split
    · rename_i x heq
      injection heq with hm hn
      exact absurd hn (h x hm)
    · rfl

/-- Marks that read as one are written as one. -/
theorem splicing_append (text : String) : "~" ++ ("@" ++ text) = "~@" ++ text := by
  rw [← String.append_assoc]
  rfl

/-- Whether two marks are read as one or not, they are spelled the same. -/
theorem text_over (m : Mark) (n : Node) : (m.over n).text = m.spelling ++ n.text := by
  rcases over_cases m n with ⟨rfl, x, rfl, hover⟩ | ⟨hover, -⟩
  · rw [hover]
    exact (splicing_append _).symm
  · rw [hover, text]

theorem whole_splicing : Piece.Whole (Mark.piece .unquoteSplicing) :=
  ⟨'~', ['@'], rfl, fun _ _ => rfl⟩

/-- A mark goes over a sound form that does not unquote dereferences and makes another one. -/
theorem sound_over {m : Mark} {n : Node} (hm : m.fuses = false) (mark : m.piece.Whole)
    (haccepts : Reading.accepts m n = true) (hform : n.isForm = true) (hsound : n.Sound)
    (hlacks : n.lacks unquotesDeref = true) :
    (m.over n).Sound ∧ (m.over n).lacks unquotesDeref = true := by
  rcases over_cases m n with ⟨-, x, rfl, hover⟩ | ⟨hover, hkind⟩
  · -- The dereference goes into the mark.
    rw [hover]
    refine ⟨?_, lacks_wrap.mpr ⟨rfl, (lacks_wrap.mp hlacks).2⟩⟩
    cases hsound with
    | fused hfuses => cases hfuses
    | wrap _ _ _ form child => exact .wrap rfl whole_splicing rfl form child
  · rw [hover]
    exact ⟨.wrap hm mark haccepts hform hsound, lacks_wrap.mpr ⟨hkind, hlacks⟩⟩

end Node

/-- A sound node has the shape that reading builds. -/
theorem shape_of_sound {n : Node} (h : n.Sound) : n.lacks Node.misshapen = true := by
  induction h with
  | leaf => rfl
  | branch hb _ ih => exact Node.lacks_branch.mpr ⟨by simp [Node.misshapen, hb], ih⟩
  | fused _ _ ih => exact Node.lacks_wrap.mpr ⟨rfl, Node.lacks_branch.mpr ⟨rfl, ih⟩⟩
  | wrap _ _ _ form _ ih => exact Node.lacks_wrap.mpr ⟨by simp [Node.misshapen, form], ih⟩
  | annotated formData formTarget _ _ ihm iht =>
    exact Node.lacks_annotated.mpr ⟨by simp [Node.misshapen, formData, formTarget], ihm, iht⟩

end CljTidy
