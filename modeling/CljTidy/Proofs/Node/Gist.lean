/-
  The gist of a tree.

  The layout of a tree does not depend on its trivia, nor on how an unquote in front of a
  dereference was read.  The gist is the tree without these: trivia is dropped from collections, but
  for a line break in front of a comment that stands alone (`sift`), and an unquote goes over its
  form as it reads (`Mark.over`).  Nothing of this can be seen from outside (`inward_gist`),
  grouping does not miss the trivia (`group_sift`), and the gist has no gist but itself
  (`gist_gist`).
-/
import CljTidy.Proofs.Item.Inward

namespace CljTidy

namespace Node

/-! ## Trivia -/

/-- The nodes without trivia.  `broken` says that a line break was passed since the last form; a
    comment then keeps one in front. -/
def sift : Bool → List Node → List Node
  | _, [] => []
  | broken, n :: ns =>
      if n.isNoise then sift (broken || n.isNewline) ns
      else if n.isComment then (if broken then [.newline "\n"] else []) ++ n :: sift broken ns
      else n :: sift false ns

/-- Trivia is dropped, and a line break among it is remembered. -/
theorem sift_noise {n : Node} (h : n.isNoise = true) (broken : Bool) (ns : List Node) :
    sift broken (n :: ns) = sift (broken || n.isNewline) ns := by
  rw [sift, if_pos h]

/-- A comment behind a line break keeps one in front. -/
theorem sift_comment (text : String) (broken : Bool) (ns : List Node) :
    sift broken (.comment text :: ns) =
      (if broken then [.newline "\n"] else []) ++ .comment text :: sift broken ns := rfl

/-- A form is kept, and the line break in front of it is forgotten. -/
theorem sift_form {n : Node} (h : n.isForm = true) (broken : Bool) (ns : List Node) :
    sift broken (n :: ns) = n :: sift false ns := by
  obtain ⟨hn, hc⟩ := isForm_iff.mp h
  rw [sift, if_neg (Bool.eq_false_iff.mp hn), if_neg (Bool.eq_false_iff.mp hc)]

/-- Sifting the nodes once is enough. -/
theorem sift_sift (broken : Bool) (ns : List Node) :
    sift broken (sift broken ns) = sift broken ns := by
  -- Outside, a line break may not have been passed yet: it still stands in front of the comment.
  suffices h : ∀ (ns : List Node) (seen broken : Bool), (seen = true → broken = true) →
      sift seen (sift broken ns) = sift broken ns from h ns broken broken id
  intro ns
  induction ns with
  | nil => exact fun _ _ _ => rfl
  | cons n ns ih =>
    intro seen broken h
    rcases n.noise_or_comment_or_form with hn | ⟨text, rfl⟩ | hn
    · rw [sift_noise hn]
      exact ih seen _ fun hs => by rw [h hs]; rfl
    · cases broken with
      | true =>
        show sift seen (.newline "\n" :: .comment text :: sift true ns) = _
        rw [sift_noise rfl, show (seen || (Node.newline "\n").isNewline) = true from Bool.or_true _,
          sift_comment, ih true true id]
        rfl
      | false =>
        have hseen : seen = false := Bool.eq_false_iff.mpr fun hs => by cases h hs
        subst hseen
        show sift false (.comment text :: sift false ns) = _
        rw [sift_comment, ih false false id]
        rfl
    · rw [sift_form hn, sift_form hn, ih false false id]

/-- What is left of the nodes is a part of them, or a line break. -/
theorem mem_sift {n : Node} {broken : Bool} {ns : List Node} (h : n ∈ sift broken ns) :
    n ∈ ns ∨ n = .newline "\n" := by
  induction ns generalizing broken with
  | nil => cases h
  | cons m ns ih =>
    have hrest : ∀ b, n ∈ sift b ns → n ∈ m :: ns ∨ n = .newline "\n" := by
      intro b hb
      rcases ih hb with hmem | rfl
      · exact .inl (List.mem_cons_of_mem _ hmem)
      · exact .inr rfl
    rcases m.noise_or_comment_or_form with hm | ⟨text, rfl⟩ | hm
    · rw [sift_noise hm] at h
      exact hrest _ h
    · rw [sift_comment, List.mem_append] at h
      rcases h with h | h
      · split at h
        · exact .inr (List.mem_singleton.mp h)
        · cases h
      · rcases List.mem_cons.mp h with rfl | h
        · exact .inl (List.mem_cons_self ..)
        · exact hrest _ h
    · rw [sift_form hm] at h
      rcases List.mem_cons.mp h with rfl | h
      · exact .inl (List.mem_cons_self ..)
      · exact hrest _ h

end Node

/-- Sifting and a change inside nodes go together. -/
theorem Inward.sift {f : Node → Node} (hf : Inward f) (broken : Bool) (ns : List Node) :
    Node.sift broken (ns.map f) = (Node.sift broken ns).map f := by
  induction ns generalizing broken with
  | nil => rfl
  | cons n ns ih =>
    rw [List.map_cons]
    rcases n.noise_or_comment_or_form with hn | ⟨text, rfl⟩ | hn
    · rw [hf.of_noise hn, Node.sift_noise hn, Node.sift_noise hn, ih]
    · rw [hf.leaf, Node.sift_comment, Node.sift_comment, ih]
      cases broken <;> simp [hf.leaf]
    · rw [Node.sift_form ((hf.isForm n).trans hn), Node.sift_form hn, ih, List.map_cons]

/-! ## Grouping -/

/-- A form is taken in the same way before and behind a line break. -/
theorem Grouping.step_form {n : Node} (h : n.isForm = true) (g : Grouping) (broken : Bool) :
    Grouping.step { g with lineBroken := broken } n = g.step n ∧
      (g.step n).lineBroken = false := by
  rcases g.step_cases n with ⟨hn, -⟩ | ⟨text, rfl, -⟩ | ⟨rfl, hm, hs⟩ | ⟨-, hmarker, hs⟩
  · exact absurd hn (Bool.eq_false_iff.mp (Node.isForm_iff.mp h).1)
  · cases h
  · rw [hs]
    simp [Grouping.step, hm]
  · have hstep : Grouping.step { g with lineBroken := broken } n =
        Grouping.addElement { g with lineBroken := broken } n := Grouping.step_element h hmarker
    rw [hs, hstep]
    exact ⟨rfl, rfl⟩

theorem Grouping.lineBroken_comment (g : Grouping) (text : String) :
    (g.step (.comment text)).lineBroken = g.lineBroken := by
  have hflush : g.flushMarker.lineBroken = g.lineBroken := by
    unfold Grouping.flushMarker
    split <;> rfl
  show (g.flushMarker.addComment text).lineBroken = _
  rw [← hflush]
  unfold Grouping.addComment
  repeat' split
  all_goals rfl

/-- Setting the mark to what it is changes nothing. -/
theorem Grouping.with_lineBroken {g : Grouping} {broken : Bool} (h : g.lineBroken = broken) :
    { g with lineBroken := broken } = g := by
  subst h
  rfl

/-- Grouping the nodes without trivia: the line break passed last may not have been seen. -/
theorem Grouping.foldl_sift (ns : List Node) (g : Grouping) (broken : Bool)
    (h : g.lineBroken = true → broken = true) :
    ((Node.sift broken ns).foldl Grouping.step g).finish =
      (ns.foldl Grouping.step { g with lineBroken := broken }).finish := by
  induction ns generalizing g broken with
  | nil =>
    obtain ⟨items, marker, owed, lineBroken⟩ := g
    cases marker <;> rfl
  | cons n ns ih =>
    rw [List.foldl_cons]
    rcases n.noise_or_comment_or_form with hn | ⟨text, rfl⟩ | hn
    · rw [Node.sift_noise hn, Grouping.step_noise hn]
      exact ih g _ fun hg => by rw [h hg]; rfl
    · -- In front of a comment the line break is seen.
      have hseen : (if broken then [Node.newline "\n"] else []).foldl Grouping.step g =
          { g with lineBroken := broken } := by
        cases broken with
        | true => rfl
        | false =>
          exact (Grouping.with_lineBroken (Bool.eq_false_iff.mpr fun hg => by cases h hg)).symm
      have hbroken := Grouping.lineBroken_comment { g with lineBroken := broken } text
      have hrest := ih (Grouping.step { g with lineBroken := broken } (.comment text)) broken
        fun hg => hbroken.symm.trans hg
      rw [Node.sift_comment, List.foldl_append, hseen, List.foldl_cons, hrest,
        Grouping.with_lineBroken hbroken]
    · obtain ⟨hstep, hbroken⟩ := Grouping.step_form hn g broken
      rw [Node.sift_form hn, List.foldl_cons, ih (g.step n) false (fun hg => hbroken ▸ hg), hstep,
        Grouping.with_lineBroken hbroken]

/-- **Grouping does not miss trivia.** -/
theorem group_sift (ns : List Node) : Item.group (Node.sift true ns) = Item.group ns :=
  Grouping.foldl_sift ns {} true fun _ => rfl

/-! ## The gist -/

namespace Node

mutual

/-- The node without trivia, with its marks as they read. -/
def gist : Node → Node
  | .branch b cs => if b.isCollection then .branch b (sift true (gistAll cs)) else .branch b cs
  | .wrap m n => m.over n.gist
  | .annotated m t => .annotated m.gist t.gist
  | n => n

/-- The gist of each node. -/
def gistAll : List Node → List Node
  | [] => []
  | n :: ns => n.gist :: gistAll ns

end

theorem gistAll_eq (ns : List Node) : gistAll ns = ns.map gist := by
  induction ns with
  | nil => rfl
  | cons n ns ih => rw [gistAll, ih, List.map_cons]

/-- The children in the gist of a collection. -/
def gists (cs : List Node) : List Node := sift true (cs.map gist)

theorem gist_collection {b : Bracket} (h : b.isCollection = true) (cs : List Node) :
    (branch b cs).gist = .branch b (gists cs) := by
  rw [gist, if_pos h, gistAll_eq, gists]

theorem gist_branch {b : Bracket} (h : b.isCollection = false) (cs : List Node) :
    (branch b cs).gist = .branch b cs := by
  rw [gist, if_neg (Bool.eq_false_iff.mp h)]

/-- A mark goes over the gist of its form. -/
theorem gist_wrap (m : Mark) (n : Node) : (wrap m n).gist = m.over n.gist := rfl

/-- A node and its gist have the same face. -/
theorem face_gist (n : Node) : n.gist.face = n.face := by
  induction n using Node.induction with
  | leaf kind text => rfl
  | branch b cs =>
    cases hb : b.isCollection with
    | true => rw [gist_collection hb]; rfl
    | false => rw [gist_branch hb]
  | wrap m n ih => rw [gist_wrap, face_over, ih, face_wrap]
  | annotated m t => rfl
  | unknown => rfl

/-- The gist looks the same from outside. -/
theorem inward_gist : Inward gist := ⟨fun _ _ => rfl, face_gist, fun _ => rfl⟩

/-- The gist of a mark as it reads is the mark, as it reads, over the gist. -/
theorem gist_over (m : Mark) (n : Node) : (m.over n).gist = m.over n.gist := by
  unfold Mark.over
  split
  · rfl
  · rename_i m n h
    rw [gist_wrap]
    rfl

/-- The gist is its own gist. -/
theorem gist_gist (n : Node) : n.gist.gist = n.gist := by
  induction n using Node.induction with
  | leaf kind text => rfl
  | branch b cs ih =>
    cases hb : b.isCollection with
    | true =>
      have hcs : (cs.map gist).map gist = cs.map gist := by
        rw [List.map_map]
        exact List.map_congr_left ih
      rw [gist_collection hb, gist_collection hb, gists, gists, ← inward_gist.sift, hcs, sift_sift]
    | false => rw [gist_branch hb, gist_branch hb]
  | wrap m n ih => rw [gist_wrap, gist_over, ih]
  | annotated m t ihm iht => rw [gist, gist, ihm, iht]
  | unknown => rfl

theorem gists_gists (cs : List Node) : gists (gists cs) = gists cs := by
  have h := gist_gist (.list cs)
  rw [gist_collection rfl, gist_collection rfl] at h
  injection h

/-- The items of the gist of a collection have the gists of the elements. -/
theorem group_gists (cs : List Node) :
    Item.group (gists cs) = (Item.group cs).map (Item.onto gist) := by
  rw [gists, group_sift, inward_gist.group]

end Node

end CljTidy
