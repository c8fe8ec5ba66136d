/-
  Formatting a declaration twice.

  A declaration is laid out with its clauses and entries in canonical order, and entries are ordered
  by their texts on a single line, comments on lines of their own included, as they are before they
  are laid out.  Laid out, an entry may have another text or have lost its comment; where this does
  not happen the elements are steadfast, and then the second run finds everything in its place
  (`declaration_again`).  The texts are without `&` and discards (`unbound_of_tokens`); the argument
  is again about the gist of the tree, as an unquote in front of a dereference is read back as
  another mark.
-/
import CljTidy.Proofs.Format.Idempotent
import CljTidy.Proofs.Layout.Declared

namespace CljTidy

open Layout (layout Legible Stays Steadfast Untied)
open Namespace (clauseKind? normalizeClause)

/-! ## Texts without `&` and discards -/

namespace Node

theorem mem_codeAll {p : Piece} {cs : List Node} : p ∈ codeAll cs ↔ ∃ c ∈ cs, p ∈ c.code := by
  induction cs with
  | nil => simp
  | cons c cs ih => simp [ih]

/-- A sound node without `&` and discards in its code has none in its tree. -/
theorem unbound_of_code {n : Node} (hsound : n.Sound)
    (h : ∀ p ∈ n.code, p.text ≠ "&" ∧ p.kind ≠ .discard) : n.lacks binds = true := by
  induction hsound with
  | @leaf kind text _ hatom =>
    cases kind with
    | atom =>
      have hcode : (Piece.kindOf text).isCode = true := by
        have hkind := hatom rfl
        revert hkind
        cases Piece.kindOf text <;> first | exact fun _ => rfl | rintro ⟨⟩
      -- The atom is its own code, so its text is not that of a binder.
      have hmem : ⟨Piece.kindOf text, text⟩ ∈ (Node.atom text).code :=
        List.mem_filter.mpr ⟨List.mem_singleton.mpr rfl, hcode⟩
      have hne := (h _ hmem).1
      exact lacks_leaf.mpr (by simpa only [binds, beq_eq_false_iff_ne] using hne)
    | _ => rfl
  | @branch b cs hb _ ih =>
    rw [code_branch hb] at h
    refine lacks_branch.mpr ⟨rfl, fun c hc => ih c hc fun p hp => h p ?_⟩
    exact List.mem_cons_of_mem _ (List.mem_append_left _ (mem_codeAll.mpr ⟨c, hc, hp⟩))
  -- A mark that fuses is no discard.
  | @fused m cs hm _ ih =>
    rw [code_fused hm] at h
    have hkind : binds (.wrap m (.list cs)) = false := by
      cases m <;> first | rfl | cases hm
    refine lacks_wrap.mpr ⟨hkind, lacks_branch.mpr ⟨rfl, fun c hc => ih c hc fun p hp => h p ?_⟩⟩
    exact List.mem_cons_of_mem _ (List.mem_append_left _ (mem_codeAll.mpr ⟨c, hc, hp⟩))
  -- The mark is in the code, so it is no discard either.
  | @wrap m n hm _ _ _ _ ih =>
    rw [code_wrap hm] at h
    obtain ⟨hmark, hchild⟩ := List.forall_mem_cons.mp h
    have hkind : binds (.wrap m n) = false := by
      cases m <;> first | rfl | exact absurd rfl hmark.2
    exact lacks_wrap.mpr ⟨hkind, ih hchild⟩
  | @annotated m t _ _ _ _ ihm iht =>
    rw [code_annotated] at h
    obtain ⟨-, hboth⟩ := List.forall_mem_cons.mp h
    obtain ⟨hm, ht⟩ := List.forall_mem_append.mp hboth
    exact lacks_annotated.mpr ⟨rfl, ihm hm, iht ht⟩

end Node

/-- A text without tokens that are `&` or discards is read as a tree without them. -/
theorem unbound_of_tokens {text : String} {tokens : List Token} {children : List Node}
    (htokens : tokenize text = .ok tokens)
    (h : ∀ t ∈ tokens, t.value ≠ some "&" ∧ t.kind ≠ .discard)
    (hparse : parse text = .ok children) :
    ∀ c ∈ children, c.lacks Node.binds = true := by
  obtain ⟨hsound, ps, hsaid, hcode, -⟩ := content_of_parse htokens hparse
  have hpieces : ∀ p ∈ ps, p.text ≠ "&" ∧ p.kind ≠ .discard := by
    intro p hp
    have hmem : p.said ∈ tokens.map Token.said := by
      rw [hsaid]
      exact List.mem_append_left _ (List.mem_map_of_mem hp)
    obtain ⟨t, ht, heq⟩ := List.mem_map.mp hmem
    obtain ⟨hkind, hvalue⟩ := Reading.said_eq heq
    have hboth := h t ht
    rw [hkind, hvalue] at hboth
    exact ⟨fun hp => hboth.1 (congrArg some hp), hboth.2⟩
  intro c hc
  refine Node.unbound_of_code (hsound c hc) fun p hp => ?_
  have hmem : p ∈ Node.codeAll children := Node.mem_codeAll.mpr ⟨c, hc, hp⟩
  rw [hcode] at hmem
  obtain ⟨q, hq, rfl⟩ := List.mem_map.mp hmem
  unfold Piece.caret
  split
  · exact ⟨by decide, by decide⟩
  · exact hpieces q (List.mem_of_mem_filter hq)

/-- The gist of such a text. -/
theorem untied_gist {n : Node} (hsound : n.Sound) (hunbound : n.lacks Node.binds = true) :
    Untied n.gist := by
  obtain ⟨hsound, hderef⟩ := hsound.gist
  refine ⟨hsound, hderef, Node.lacks_gist (fun _ _ => rfl) rfl (fun m n n' => ?_) (fun _ => rfl)
    (fun _ _ => rfl) hunbound⟩
  cases m <;> rfl

/-! ## Declarations up to their gist -/

theorem Node.importsLists_of_not_list {n : Node} (h : n.isList = false) :
    n.importsLists = true := by
  unfold importsLists
  split
  · cases h
  · rfl

/-- Whether the entries of imports are lists and vectors can be told from the gist. -/
theorem Node.importsLists_gist (n : Node) : n.gist.importsLists = n.importsLists := by
  have hlist : n.gist.isList = n.isList := by
    rw [← isList_face, face_gist, isList_face]
  cases h : n.isList with
  | false => rw [importsLists_of_not_list h, importsLists_of_not_list (hlist.trans h)]
  | true =>
    obtain ⟨cs, rfl⟩ := eq_list h
    have hkind := clauseKind_gist (.list cs)
    rw [gist_collection rfl] at hkind ⊢
    rcases hsplit : Item.splitHead (Item.group cs) with ⟨leading, head, entries⟩
    have hentry : ∀ i : Item, (i.onto gist).isComment = i.isComment ∧
        (i.onto gist).element.isList = i.element.isList ∧
        (i.onto gist).element.isVector = i.element.isVector := by
      intro i
      refine ⟨inward_gist.isComment_onto i, ?_, ?_⟩
      · rw [Item.onto, ← isList_face, face_gist, isList_face]
      · rw [Item.onto, ← isVector_face, face_gist, isVector_face]
    rw [importsLists, importsLists, hkind, group_gists, inward_gist.splitHead hsplit, hsplit]
    simp only [List.all_map, Function.comp_def, hentry]

section

variable {text : String} {tokens : List Token} {children cs : List Node}
  (htokens : tokenize text = .ok tokens)
  (hbinds : ∀ t ∈ tokens, t.value ≠ some "&" ∧ t.kind ≠ .discard)
  (hparse : parse text = .ok children) (hforms : children.filter Node.isForm = [.list cs])
  (hns : (Node.list cs).declaresNamespace = true)
  (himports : ∀ c ∈ cs, c.importsLists = true) (hsteadfast : ∀ c ∈ cs, Steadfast c.gist)

include htokens hbinds hparse

/-- The children of a text without `&` and discards have untied gists. -/
theorem untied_of_parse : ∀ c ∈ children, Untied c.gist := fun c hc =>
  untied_gist (sound_of_parse hparse c hc) (unbound_of_tokens htokens hbinds hparse c hc)

include hforms

/-- In the gist of such a text with one form, that form is the only element. -/
theorem element_of_parse :
    ∀ i ∈ Item.group (Node.gists children), i.Plain ∧
      i.Made (fun n => n = .list (Node.gists cs)) fun text => Comment.IsComment text.toList := by
  have hchildren := Node.forall_gists
    (P := fun n => Untied n ∧ (n.isForm = true → n = .list (Node.gists cs)))
    ⟨Untied.newline, by rintro ⟨⟩⟩ fun c hc => by
      refine ⟨untied_of_parse htokens hbinds hparse c hc, fun hform => ?_⟩
      have hmem : c ∈ children.filter Node.isForm :=
        List.mem_filter.mpr ⟨hc, (Node.inward_gist.isForm c).symm.trans hform⟩
      rw [hforms] at hmem
      rw [List.mem_singleton.mp hmem, Node.gist_collection rfl]
  intro i hi
  obtain ⟨hplain, hmade⟩ := Layout.made_of_unbound (fun n hn => ⟨hn.1.sound, hn.1.unbound⟩)
    hchildren i hi
  refine ⟨hplain, ?_⟩
  cases hmade with
  | comment comment => exact .comment comment
  | element form made marked trailing => exact .element form (made.2 form) marked trailing

include hns himports hsteadfast

/-- The declaration can be read when it is laid out, and stays. -/
theorem declaration_of_parse :
    Legible (.list (Node.gists cs)) ∧ Stays (layout .standard) (.list (Node.gists cs)) := by
  have hlist : .list cs ∈ children :=
    List.mem_of_mem_filter (hforms ▸ List.mem_singleton.mpr rfl)
  have hparts : ∀ c ∈ cs, Untied c.gist := by
    intro c hc
    cases sound_of_parse hparse _ hlist with
    | branch _ hsound =>
      have hunbound := unbound_of_tokens htokens hbinds hparse _ hlist
      exact untied_gist (hsound c hc) ((Node.lacks_branch.mp hunbound).2 c hc)
  refine Layout.declaration_again ((Node.declaresNamespace_gists .list cs).trans hns)
    (Node.forall_gists (P := Untied) Untied.newline hparts) ?_
  refine Node.forall_gists (P := fun n => n.isForm = true → Layout.Firm (normalizeClause n))
    (by rintro ⟨⟩) fun c hc hform => ?_
  exact Layout.firm_normalizeClause (hparts c hc) hform
    ((Node.importsLists_gist c).trans (himports c hc)) (hsteadfast c hc)

end

/-- **Formatting a declaration is idempotent.**  A text without `&` and discards whose only form
    declares a namespace and whose imports are lists and vectors is formatted to a text that is
    formatted to itself, provided that the elements of the declaration are steadfast. -/
theorem format_declaration {text : String} {tokens : List Token} {children cs : List Node}
    (htokens : tokenize text = .ok tokens)
    (hbinds : ∀ t ∈ tokens, t.value ≠ some "&" ∧ t.kind ≠ .discard)
    (hparse : parse text = .ok children) (hforms : children.filter Node.isForm = [.list cs])
    (hns : (Node.list cs).declaresNamespace = true)
    (himports : ∀ c ∈ cs, c.importsLists = true) (hsteadfast : ∀ c ∈ cs, Steadfast c.gist) :
    ∃ out, format text = .ok out ∧ format out = .ok out := by
  have hitems := element_of_parse htokens hbinds hparse hforms
  obtain ⟨hlegible, hstays⟩ :=
    declaration_of_parse htokens hbinds hparse hforms hns himports hsteadfast
  have hlegibles : ∀ i ∈ Item.group (Node.gists children),
      i.Made Legible fun text => Comment.IsComment text.toList := by
    intro i hi
    cases (hitems i hi).2 with
    | comment comment => exact .comment comment
    | element form made marked trailing => exact .element form (made ▸ hlegible) marked trailing
  have hstay : ∀ i ∈ Item.group (Node.gists children),
      i.Plain ∧ (i.isComment = false → Stays (layout .standard) i.element) := by
    intro i hi
    refine ⟨(hitems i hi).1, fun hnot => ?_⟩
    cases (hitems i hi).2 with
    | comment => cases hnot
    | element form made => exact made ▸ hstays
  have hread := Layout.parse_document hlegibles
  rw [Layout.text_gists] at hread
  refine ⟨_, format_of_parse hparse, ?_⟩
  rw [format_of_parse hread, Layout.text_document_again hstay, Layout.text_gists]

/-- A clause of imports without comments. -/
theorem steadfast_imports :
    Steadfast (Node.list [.atom ":import", .space " ",
      .vector [.atom "x", .space " ", .atom "Y"]]).gist := by
  have hkind : clauseKind? (.list [.atom ":import", .vector [.atom "x", .atom "Y"]]) =
      some .imports := by cbv
  have hsplit : Item.splitHead (Item.group [.atom ":import", .vector [.atom "x", .atom "Y"]]) =
      ([], some ⟨.atom ":import", none, none⟩,
        [⟨.vector [.atom "x", .atom "Y"], none, none⟩]) := by cbv
  refine Layout.steadfast_clause hkind (by decide) hsplit fun i hi _ => ?_
  rw [List.mem_singleton.mp hi]
  exact ⟨rfl, Layout.holdsPlace_of_no_comment rfl⟩

/-- A clause of libraries with a tidy comment inside one of them, and others around them. -/
theorem steadfast_libraries :
    Steadfast (Node.list [.atom ":require", .space " ",
      .vector [.comment ";;e", .newline "\n", .space " ", .atom "b", .space " ", .atom ":as",
        .space " ", .atom "c"],
      .space " ", .comment ";f", .newline "\n", .space " ", .comment ";g", .newline "\n",
      .space " ", .atom "a"]).gist := by
  have hkind : clauseKind? (.list [.atom ":require",
      .vector [.newline "\n", .comment ";;e", .atom "b", .atom ":as", .atom "c"],
      .comment ";f", .newline "\n", .comment ";g", .atom "a"]) = some .requires := by cbv
  have hsplit : Item.splitHead (Item.group [.atom ":require",
      .vector [.newline "\n", .comment ";;e", .atom "b", .atom ":as", .atom "c"],
      .comment ";f", .newline "\n", .comment ";g", .atom "a"]) =
    ([], some ⟨.atom ":require", none, none⟩,
      [⟨.vector [.newline "\n", .comment ";;e", .atom "b", .atom ":as", .atom "c"], none,
          some ";f"⟩,
        ⟨.comment ";g", none, none⟩, ⟨.atom "a", none, none⟩]) := by cbv
  have hgroup : Item.group [.newline "\n", .comment ";;e", .atom "b", .atom ":as", .atom "c"] =
      [⟨.comment ";;e", none, none⟩, ⟨.atom "b", none, none⟩, ⟨.atom ":as", none, none⟩,
        ⟨.atom "c", none, none⟩] := by cbv
  refine Layout.steadfast_clause hkind (by decide) hsplit fun i hi hnot => ?_
  simp only [List.mem_cons, List.not_mem_nil, or_false] at hi
  rcases hi with rfl | rfl | rfl
  · refine ⟨rfl, Layout.holdsPlace_vector ⟨rfl, rfl⟩ (by decide) ?_ ?_⟩
    · rw [hgroup]
      decide
    · rw [hgroup]
      decide
  · cases hnot
  · exact ⟨rfl, Layout.holdsPlace_of_no_comment rfl⟩

set_option maxRecDepth 2000 in
/-- An import, libraries in the wrong order, a comment above one and one at the end of a line, and a
    library with a comment inside. -/
theorem format_declaration_comments :
    ∃ tokens children cs,
      tokenize "(ns n (:import [x Y]) (:require [;;e\n b :as c] ;f\n ;g\n a))" = .ok tokens ∧
      (∀ t ∈ tokens, t.value ≠ some "&" ∧ t.kind ≠ .discard) ∧
      parse "(ns n (:import [x Y]) (:require [;;e\n b :as c] ;f\n ;g\n a))" = .ok children ∧
      children.filter Node.isForm = [.list cs] ∧ (Node.list cs).declaresNamespace = true ∧
      (∀ c ∈ cs, c.importsLists = true) ∧ (∀ c ∈ cs, Steadfast c.gist) ∧
      ∃ out, format "(ns n (:import [x Y]) (:require [;;e\n b :as c] ;f\n ;g\n a))" = .ok out ∧
        format out = .ok out := by
  have hall : (match tokenize "(ns n (:import [x Y]) (:require [;;e\n b :as c] ;f\n ;g\n a))" with
      | .ok tokens => tokens.all fun t => t.value != some "&" && t.kind != .discard
      | .error _ => false) = true := by cbv
  have hparse : parse "(ns n (:import [x Y]) (:require [;;e\n b :as c] ;f\n ;g\n a))" =
      .ok [.list [.atom "ns", .space " ", .atom "n", .space " ",
        .list [.atom ":import", .space " ", .vector [.atom "x", .space " ", .atom "Y"]], .space " ",
        .list [.atom ":require", .space " ",
          .vector [.comment ";;e", .newline "\n", .space " ", .atom "b", .space " ", .atom ":as",
            .space " ", .atom "c"],
          .space " ", .comment ";f", .newline "\n", .space " ", .comment ";g", .newline "\n",
          .space " ", .atom "a"]]] := by cbv
  cases htokens : tokenize "(ns n (:import [x Y]) (:require [;;e\n b :as c] ;f\n ;g\n a))" with
  | error e =>
    rw [htokens] at hall
    cases hall
  | ok tokens =>
    rw [htokens] at hall
    refine ⟨tokens, _, _, rfl, ?hbinds, hparse, rfl, ?hns, ?himports, ?hsteadfast,
      format_declaration htokens ?hbinds hparse rfl ?hns ?himports ?hsteadfast⟩
    case hbinds =>
      intro t ht
      simpa using List.all_eq_true.mp hall t ht
    case hns => cbv
    case himports => exact List.all_eq_true.mp (by cbv)
    case hsteadfast =>
      intro c hc
      simp only [List.mem_cons, List.not_mem_nil, or_false] at hc
      rcases hc with rfl | rfl | rfl | rfl | rfl | rfl | rfl
      case inr.inr.inr.inr.inl => exact steadfast_imports
      case inr.inr.inr.inr.inr.inr => exact steadfast_libraries
      all_goals exact Layout.steadfast_leaf _ _

end CljTidy
