/-
  Formatting twice.

  Formatted text is read back as the tree that was laid out, and that tree is not changed any more.
  Only an unquote in front of a dereference is read back as another mark; so the argument is about
  the gist of the tree, which is written with the same text and has no such marks (`fit_gists`).
-/
import CljTidy.Proofs.Format.Faithful
import CljTidy.Proofs.Layout.Gist
import CljTidy.Proofs.Layout.Steady

namespace CljTidy

open Layout (Fit documentNodes)

/-! ## The gist of a text -/

namespace Node

/-- What is known of the children holds of the children in the gist, if it holds of a line break. -/
theorem forall_gists {P : Node → Prop} (hnewline : P (.newline "\n")) {cs : List Node}
    (h : ∀ c ∈ cs, P c.gist) : ∀ c ∈ gists cs, P c := by
  intro c hc
  rcases mem_sift hc with hc | rfl
  · obtain ⟨d, hd, rfl⟩ := List.mem_map.mp hc
    exact h d hd
  · exact hnewline

/-- The gist of a sound node is sound, and does not unquote dereferences. -/
theorem Sound.gist {n : Node} (h : n.Sound) :
    n.gist.Sound ∧ n.gist.lacks unquotesDeref = true := by
  induction h with
  | leaf whole atom => exact ⟨.leaf whole atom, rfl⟩
  | branch hb _ ih =>
    have hcs := forall_gists (P := fun n => n.Sound ∧ n.lacks unquotesDeref = true)
      ⟨sound_newline, rfl⟩ ih
    rw [gist_collection hb]
    exact ⟨.branch hb fun c hc => (hcs c hc).1, lacks_branch.mpr ⟨rfl, fun c hc => (hcs c hc).2⟩⟩
  | @fused m cs hm _ ih =>
    have hcs := forall_gists (P := fun n => n.Sound ∧ n.lacks unquotesDeref = true)
      ⟨sound_newline, rfl⟩ ih
    have hkind : unquotesDeref (.wrap m (.list (gists cs))) = false := by
      cases m <;> rfl
    rw [Node.gist, gist_collection rfl, over_branch]
    exact ⟨.fused hm fun c hc => (hcs c hc).1,
      lacks_wrap.mpr ⟨hkind, lacks_branch.mpr ⟨rfl, fun c hc => (hcs c hc).2⟩⟩⟩
  | @wrap m n hm mark haccepts hform _ ih =>
    exact sound_over hm mark ((accepts_of_face (face_gist n)).trans haccepts)
      ((inward_gist.isForm n).trans hform) ih.1 ih.2
  | annotated hm ht _ _ ihm iht =>
    exact ⟨.annotated ((inward_gist.isForm _).trans hm) ((inward_gist.isForm _).trans ht) ihm.1
      iht.1, lacks_annotated.mpr ⟨rfl, ihm.2, iht.2⟩⟩

/-- A kind that branches are of if their gists are, and wrapped forms by their marks alone: what
    lacks it lacks it in its gist. -/
theorem lacks_gist {kind : Node → Bool}
    (hbranch : ∀ b cs, kind (.branch b (gists cs)) = kind (.branch b cs))
    (hnewline : kind (.newline "\n") = false)
    (hwrap : ∀ m n n', kind (.wrap m n) = kind (.wrap m n'))
    (hsplicing : ∀ n, kind (.wrap .unquoteSplicing n) = false)
    (hannotated : ∀ m t, kind (.annotated m t) = false) {n : Node} (h : n.lacks kind = true) :
    n.gist.lacks kind = true := by
  induction n using Node.induction with
  | leaf kind text => exact h
  | branch b cs ih =>
    obtain ⟨hkind, hcs⟩ := lacks_branch.mp h
    cases hb : b.isCollection with
    | false => rwa [gist_branch hb]
    | true =>
      rw [gist_collection hb]
      refine lacks_branch.mpr ⟨(hbranch b cs).trans hkind, ?_⟩
      refine forall_gists (P := fun n => n.lacks kind = true) ?_ fun c hc => ih c hc (hcs c hc)
      exact lacks_leaf.mpr hnewline
  | wrap m n ih =>
    obtain ⟨hkind, hn⟩ := lacks_wrap.mp h
    have hn := ih hn
    rw [gist]
    rcases over_cases m n.gist with ⟨-, x, hx, hover⟩ | ⟨hover, -⟩
    · rw [hx] at hn
      rw [hover]
      exact lacks_wrap.mpr ⟨hsplicing x, (lacks_wrap.mp hn).2⟩
    · rw [hover]
      exact lacks_wrap.mpr ⟨(hwrap m n.gist n).trans hkind, hn⟩
  | annotated m t ihm iht =>
    obtain ⟨-, hm, ht⟩ := lacks_annotated.mp h
    exact lacks_annotated.mpr ⟨hannotated _ _, ihm hm, iht ht⟩
  | unknown => exact h

/-- Whether a list declares a namespace can be told from its gist. -/
theorem declaresNamespace_gists (b : Bracket) (cs : List Node) :
    (branch b (gists cs)).declaresNamespace = (branch b cs).declaresNamespace := by
  have helement : ∀ n : Node, (n.gist == .atom "ns") = (n == .atom "ns") := by
    intro n
    rw [Bool.eq_iff_iff, beq_iff_eq, beq_iff_eq, inward_gist.eq_atom]
  cases b with
  | list =>
    simp only [declaresNamespace, group_gists]
    rcases hsplit : Item.splitHead (Item.group cs) with ⟨leading, _ | head, rest⟩
    · rw [inward_gist.splitHead hsplit]
      rfl
    · rw [inward_gist.splitHead hsplit]
      simp only [Option.map_some, Option.any_some, Item.onto, helement]
  | _ => rfl

theorem head_sift (broken : Bool) (ns : List Node) :
    ((sift broken ns).dropWhile isNoise).head? = (ns.dropWhile isNoise).head? := by
  induction ns generalizing broken with
  | nil => rfl
  | cons n ns ih =>
    rcases n.noise_or_comment_or_form with hn | ⟨text, rfl⟩ | hn
    · rw [sift_noise hn, ih, List.dropWhile_cons, if_pos hn]
    · rw [sift_comment]
      cases broken <;> rfl
    · have hnoise := (isForm_iff.mp hn).1
      rw [sift_form hn, List.dropWhile_cons, List.dropWhile_cons, hnoise]
      rfl

/-- Whether an `&` has a comment next does not depend on trivia. -/
theorem markerDangles_gists (cs : List Node) : markerDangles (gists cs) = markerDangles cs := by
  -- Sifting drops trivia, which was not looked at.
  have hsift : ∀ (broken : Bool) (ns : List Node),
      markerDangles (sift broken ns) = markerDangles ns := by
    intro broken ns
    induction ns generalizing broken with
    | nil => rfl
    | cons n ns ih =>
      rcases n.noise_or_comment_or_form with hn | ⟨text, rfl⟩ | hn
      · have hne : (n == .atom "&") = false := by
          obtain ⟨kind, text, rfl⟩ := leaf_of_noise hn
          cases kind <;> first | rfl | cases hn
        rw [sift_noise hn, ih, markerDangles, hne, Bool.false_and, Bool.false_or]
      · rw [sift_comment]
        have hrest := ih broken
        cases broken <;> exact hrest
      · rw [sift_form hn, markerDangles, markerDangles, head_sift, ih]
  -- From outside the gist is the node: it is an `&` or a comment just if the node is.
  have hmap : ∀ ns : List Node, markerDangles (ns.map gist) = markerDangles ns := by
    intro ns
    induction ns with
    | nil => rfl
    | cons n ns ih =>
      have hamp : (n.gist == .atom "&") = (n == .atom "&") := by
        rw [Bool.eq_iff_iff, beq_iff_eq, beq_iff_eq, inward_gist.eq_atom]
      have hhead : ((ns.map gist).dropWhile isNoise).head?.any isComment =
          (ns.dropWhile isNoise).head?.any isComment := by
        rw [List.dropWhile_map, show isNoise ∘ gist = isNoise from funext inward_gist.isNoise,
          List.head?_map, Option.any_map]
        simp only [inward_gist.isComment]
      rw [List.map_cons, markerDangles, markerDangles, hamp, hhead, ih]
  rw [gists, hsift, hmap]

end Node

/-- The gist of a text that can be read is fit, if the text declares no namespace. -/
theorem fit_gists {text : String} {children : List Node} (h : parse text = .ok children)
    (hns : (Node.document children).lacks Node.declaresNamespace = true) :
    ∀ c ∈ Node.gists children, Fit c := by
  refine Node.forall_gists (P := Fit) ⟨sound_newline, rfl, rfl⟩ fun c hc => ?_
  obtain ⟨hsound, hderef⟩ := (sound_of_parse h c hc).gist
  exact ⟨hsound, Node.lacks_gist Node.declaresNamespace_gists rfl (fun _ _ _ => rfl)
    (fun _ => rfl) (fun _ _ => rfl) ((Node.lacks_branch.mp hns).2 c hc), hderef⟩

theorem lacks_danglesMarker_gists {children : List Node}
    (h : (Node.document children).lacks Node.danglesMarker = true) :
    (Node.document (Node.gists children)).lacks Node.danglesMarker = true := by
  obtain ⟨hmarkers, hchildren⟩ := Node.lacks_branch.mp h
  refine Node.lacks_branch.mpr ⟨(Node.markerDangles_gists children).trans hmarkers, ?_⟩
  refine Node.forall_gists (P := fun n => n.lacks Node.danglesMarker = true) rfl fun c hc => ?_
  exact Node.lacks_gist (fun _ cs => Node.markerDangles_gists cs) rfl (fun _ _ _ => rfl)
    (fun _ => rfl) (fun _ _ => rfl) (hchildren c hc)

/-! ## Formatting twice -/

/-- **Formatting is idempotent.**  Without namespace declarations and comments behind an `&`, the
    formatted text is formatted to itself. -/
theorem format_format {text : String} {children : List Node} (hparse : parse text = .ok children)
    (hns : (Node.document children).lacks Node.declaresNamespace = true)
    (hmarker : (Node.document children).lacks Node.danglesMarker = true) :
    ∃ out, format text = .ok out ∧ format out = .ok out := by
  have hfit := fit_gists hparse hns
  have hread := Layout.parse_document (Layout.legible_of_fit hfit)
  rw [Layout.text_gists] at hread
  refine ⟨_, format_of_parse hparse, ?_⟩
  rw [format_of_parse hread,
    Layout.documentNodes_again hfit (lacks_danglesMarker_gists hmarker), Layout.text_gists]

/-- Bindings with comments, an unquote in front of a dereference, and two discards on one form. -/
theorem format_format_bindings :
    ∃ children, parse "(let [& a ;b\n ~ @c] ;d\n #_ #_ e f)" = .ok children ∧
      (Node.document children).lacks Node.declaresNamespace = true ∧
      (Node.document children).lacks Node.danglesMarker = true ∧
      ∃ out, format "(let [& a ;b\n ~ @c] ;d\n #_ #_ e f)" = .ok out ∧ format out = .ok out := by
  have hparse : parse "(let [& a ;b\n ~ @c] ;d\n #_ #_ e f)" =
      .ok [.list [.atom "let", .space " ",
        .vector [.atom "&", .space " ", .atom "a", .space " ", .comment ";b", .newline "\n",
          .space " ", .wrap .unquote (.wrap .deref (.atom "c"))],
        .space " ", .comment ";d", .newline "\n", .space " ",
        .discard (.discard (.atom "e")), .space " ", .atom "f"]] := by cbv
  refine ⟨_, hparse, ?hns, ?hmarker, format_format hparse ?hns ?hmarker⟩
  case hns => cbv
  case hmarker => cbv

end CljTidy
