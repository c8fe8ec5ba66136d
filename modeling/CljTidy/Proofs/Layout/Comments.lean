/-
  Layout keeps comments.

  Whatever the table and the column, no comment is lost and none is made up: the comments in what
  comes out and those that leave it are, up to their tidy form and their order, those of the tree
  (`commentTexts_layout`).  A collection is a page, and a page keeps the comments of its items if
  its elements keep theirs; canonical order only moves them, and what goes on a single line has
  none.  The induction is over the rank, as canonical order makes elements of its own.
-/
import CljTidy.Proofs.Layout.Declaration
import CljTidy.Proofs.Layout.Written
import CljTidy.Proofs.Token.Spelling

namespace CljTidy.Layout

/-- What comes out and what leaves it have the comments of the node, in tidy form. -/
abbrev Retains (r : Rendered) (n : Node) : Prop := KeepsComments Node.commentTexts Comment.tidy r n

/-- The sites where everything of at most the given rank retains its comments. -/
abbrev Retaining (r : Nat) : Lay → Int → Prop := Right (fun _ => True) Retains r

/-! ## Pages -/

/-- A script retains the comments of its items if the elements retain theirs. -/
theorem retains_script {r : Nat} {items : List Item} {children : List Node}
    (harranged : Arranged items children) (hrank : ∀ i ∈ items, rank i.element ≤ r)
    {script : Script} {leaving : List String}
    (h : Account (Retaining r) items script.items leaving) :
    ((Node.commentTextsAll script.nodes).map Comment.tidy ++ leaving.map Comment.tidy).Perm
      ((Node.commentTextsAll children).map Comment.tidy) := by
  have hscript := comments_page Node.tells_commentTexts Comment.tidy_tidy h
    (fun _ _ m _ => Node.commentTexts_atom m)
    fun l column hsite i hi _ => hsite i.element (hrank i hi) trivial
  have hitems := (Item.allComments_eq items).symm.trans harranged.allComments
  exact hscript.trans (hitems.map Comment.tidy)

/-- Pages retain comments, and what goes on a single line has none. -/
theorem pageLaw_retains : PageLaw (fun _ => True) Retains where
  page := by
    intro r low b children items page rendered _ harranged hrank hshows hlaid
    have hscript := retains_script harranged hrank hlaid.account
    unfold Retains KeepsComments
    rw [hshows.node, hshows.hoisted, Node.commentTexts_branch, Node.commentTexts_branch,
      Node.commentTextsAll, comments_children Node.tells_commentTexts]
    exact hscript
  single := by
    intro n _ hcomment
    have hnone := Node.commentTexts_eq_nil.mpr hcomment
    unfold Retains KeepsComments
    rw [hnone, Node.commentTexts_flatten hnone]
    exact .refl _

/-! ## Trees -/

section

variable {table : Table}

/-- A document puts its items below each other, and a fragment stays as it is. -/
theorem retains_other {b : Bracket} (hb : b.isCollection = false) {cs : List Node}
    (ih : ∀ n : Node, rank n ≤ rankAll cs → ∀ (place : Place) (column : Int),
      Retains (place.lay (layout table) column n) n) (place : Place) (column : Int) :
    Retains (place.lay (layout table) column (.branch b cs)) (.branch b cs) := by
  obtain ⟨low, hlow, hc⟩ := exists_low column
  have hlay : ∀ place : Place, Serves (Retaining (rankAll cs)) low (place.lay (layout table)) :=
    fun place => ⟨faithful_layout table place, fun c _ n hn _ => ih n hn place c⟩
  rcases lay_of_not_collection hb cs place column with h | h
  · rw [h]
    cases b with
    | document =>
      obtain ⟨hnode, hhoisted⟩ := layout_document table column cs
      have hscript := retains_script (.inl rfl) (fun i hi => rank_element hi)
        (Account.document (hlay .plain) hlow (Item.group cs))
      unfold Retains KeepsComments
      rw [hnode, hhoisted, Node.commentTexts_branch, Node.commentTexts_branch]
      exact hscript
    | fragment =>
      have hsame : layout table column (.fragment cs) = { node := .fragment cs } := by
        rw [layout_eq_step]
        rfl
      rw [hsame]
      unfold Retains KeepsComments
      simp
    | _ => cases hb
  · have hpairs : Plan.pairs.Indents := trivial
    exact pageLaw_retains.page trivial (.inl rfl) (fun i hi => rank_element hi) h
      (laid_plan hlow hlay hpairs hc b (Item.group cs))

/-- Every node retains its comments, anywhere. -/
theorem retains_lay (n : Node) :
    ∀ (place : Place) (column : Int), Retains (place.lay (layout table) column n) n := by
  refine rank_induction (P := fun n => ∀ (place : Place) (column : Int),
    Retains (place.lay (layout table) column n) n) ?_ ?_ ?_ ?_ ?_ n
  · intro kind text place column
    rw [lay_leaf]
    unfold Retains KeepsComments
    cases kind with
    | comment => simp [tidyLeaf, Comment.tidy_tidy]
    | _ => exact .refl _
  · intro b cs ih
    cases hb : b.isCollection with
    | true => exact pageLaw_retains.collection hb trivial fun n hn _ => ih n hn
    | false => exact retains_other hb ih
  · intro m n ih place column
    rw [lay_wrap]
    exact ih (Mark.place m) (column + m.width)
  · intro m t ihm iht place column
    rw [lay_annotated]
    have hm : Retains (layout table (column + 1) m) m := ihm .plain (column + 1)
    have ht : ∀ c, Retains (layout table c t) t := iht .plain
    have hboth := hm.append (ht (endColumn (column + 1) (layout table (column + 1) m).node.text + 1))
    unfold Retains KeepsComments
    rw [Node.commentTexts_annotated, Node.commentTexts_annotated]
    -- The comments that leave stand behind all others, not behind their part.
    rw [List.map_append, List.map_append, List.map_append]
    exact (perm_exchange ..).trans hboth
  · intro place column
    rw [lay_unknown]
    exact .refl _

end

/-- **Layout keeps comments.**  Under any table and at any column, the comments in what comes out of
    a tree and those that leave it are those of the tree, up to their tidy form and their order. -/
theorem commentTexts_layout (table : Table) (column : Int) (n : Node) :
    (((layout table column n).node.commentTexts ++ (layout table column n).hoisted).map
      Comment.tidy).Perm (n.commentTexts.map Comment.tidy) := by
  rw [List.map_append]
  exact retains_lay n .plain column

end CljTidy.Layout
