/-
  Pages further to the right.

  A text that starts `k` columns further to the right has `k` more spaces in front of every line but
  the first, unless the line is empty (`shiftLines`).  If the elements of some items come out so
  wherever they are laid out (`Slides`), then so does their page: each gap, item and line of the
  page at one column is that at the other column, moved (`shifts_settle` to `shifts_callPage`), and
  the columns read off what is written move along (`Shifted.endColumn`).  Line breaks on a page go
  to columns behind the margin, so what is moved never ends with one.
-/
import CljTidy.Proofs.Layout.Account
import CljTidy.Proofs.Token.Spelling
import Mathlib.Data.List.Forall2

namespace CljTidy

namespace Layout

/-! ## Texts -/

/-- `k` spaces behind every line feed that no other one follows. -/
def shiftLines (k : Nat) : List Char → List Char
  | [] => []
  | c :: cs =>
      c :: ((if c = '\n' ∧ cs.head? ≠ some '\n' then List.replicate k ' ' else []) ++
        shiftLines k cs)

variable {k : Nat}

/-- A text without line feeds stays as it is. -/
theorem shiftLines_of_not_mem {s : List Char} (h : '\n' ∉ s) : shiftLines k s = s := by
  induction s with
  | nil => rfl
  | cons c cs ih =>
    obtain ⟨hc, hcs⟩ := not_or.mp (mt List.mem_cons.mpr h)
    rw [shiftLines, if_neg fun hline => hc hline.1.symm, ih hcs, List.nil_append]

/-- Texts are moved part by part, if the first one does not end with a line feed. -/
theorem shiftLines_append {s : List Char} (h : s.getLast? ≠ some '\n') (t : List Char) :
    shiftLines k (s ++ t) = shiftLines k s ++ shiftLines k t := by
  induction s with
  | nil => rfl
  | cons c cs ih =>
    cases cs with
    | nil =>
      have hc : c ≠ '\n' := by simpa using h
      simp [shiftLines, hc]
    | cons d ds =>
      rw [List.getLast?_cons_cons] at h
      rw [List.cons_append, shiftLines, ih h, ← List.append_assoc]
      rfl

/-- The text `t` is `s`, moved `k` columns to the right; more may follow on its last line. -/
structure Shifted (k : Nat) (s t : String) : Prop where
  text : t.toList = shiftLines k s.toList
  last : s.toList.getLast? ≠ some '\n'

/-- The text stays on its line. -/
def Unbroken (text : String) : Prop := '\n' ∉ text.toList

/-- Two texts on one line are one. -/
theorem Unbroken.append {s t : String} (hs : Unbroken s) (ht : Unbroken t) : Unbroken (s ++ t) := by
  simpa [Unbroken] using ⟨hs, ht⟩

namespace Shifted

/-- What stays on its line is moved as it is. -/
theorem of_unbroken {s : String} (h : Unbroken s) : Shifted k s s :=
  ⟨(shiftLines_of_not_mem h).symm, fun hlast => h (List.mem_of_getLast? hlast)⟩

/-- Parts are moved one behind the other. -/
theorem append {s t s' t' : String} (h : Shifted k s t) (h' : Shifted k s' t') :
    Shifted k (s ++ s') (t ++ t') := by
  refine ⟨?_, ?_⟩
  · rw [String.toList_append, String.toList_append, h.text, h'.text, shiftLines_append h.last]
  · rw [String.toList_append, List.getLast?_append]
    cases hlast : s'.toList.getLast? with
    | none => simpa using h.last
    | some c => simpa [hlast] using h'.last

/-- **Columns move along.** -/
theorem endColumn {s t : String} (h : Shifted k s t) (column : Int) :
    endColumn (column + k) t = endColumn column s + k := by
  -- Where a text breaks the line it does not matter where it starts.
  suffices hall : ∀ (cs : List Char) (column : Int), cs.getLast? ≠ some '\n' →
      (shiftLines k cs).foldl (fun column c => if c = '\n' then 0 else column + 1) (column + k) =
        cs.foldl (fun column c => if c = '\n' then 0 else column + 1) column + k by
    rw [Layout.endColumn, Layout.endColumn, h.text]
    exact hall _ column h.last
  have hspaces : ∀ column : Int, (List.replicate k ' ').foldl
      (fun column c => if c = '\n' then 0 else column + 1) column = column + k := by
    intro column
    simpa [Layout.endColumn, indentation] using
      endColumn_indentation (Int.natCast_nonneg k) column
  intro cs
  induction cs with
  | nil => exact fun _ _ => rfl
  | cons c cs ih =>
    intro column hlast
    rw [shiftLines, List.foldl_cons, List.foldl_cons, List.foldl_append]
    cases cs with
    | nil =>
      have hc : c ≠ '\n' := by simpa using hlast
      simp only [hc, false_and, if_false, shiftLines, List.foldl_nil]
      omega
    | cons d ds =>
      rw [List.getLast?_cons_cons] at hlast
      by_cases hc : c = '\n'
      · by_cases hd : d = '\n'
        · have hblank := ih 0 hlast
          simp only [hc, hd, shiftLines, List.head?_cons, List.foldl_cons, ne_eq, not_true_eq_false,
            and_false, if_false, if_true, List.foldl_nil] at hblank ⊢
          exact hblank
        · have hrest := ih 0 hlast
          simp only [hc, hd, List.head?_cons, ne_eq, Option.some.injEq, not_false_eq_true, and_self,
            if_true, hspaces]
          exact hrest
      · have hrest := ih (column + 1) hlast
        simp only [hc, false_and, if_false, List.foldl_nil]
        rw [← hrest]
        congr 1
        omega

end Shifted

/-! ## Gaps -/

/-- The same gap, `k` columns further to the right; a line break goes to a column behind the
    margin. -/
inductive Gap.Shifts (k : Nat) : Gap → Gap → Prop
  | none : Gap.Shifts k .none .none
  | space : Gap.Shifts k .space .space
  | line {column : Int} (blank : Bool) (inside : 0 < column) :
      Gap.Shifts k (.line column blank) (.line (column + k) blank)

/-- A line break leads `k` columns further to the right. -/
theorem shifted_indentation {column : Int} (h : 0 < column) :
    Shifted k ("\n" ++ indentation column) ("\n" ++ indentation (column + k)) := by
  obtain ⟨m, rfl⟩ : ∃ m : Nat, column = m + 1 := ⟨(column - 1).toNat, by omega⟩
  have hmore : ((m : Int) + 1 + k).toNat = k + (m + 1) := by omega
  have hless : ((m : Int) + 1).toNat = m + 1 := by omega
  have hspaces : '\n' ∉ List.replicate (m + 1) ' ' := by simp
  have hmoved := shiftLines_of_not_mem (k := k) hspaces
  refine ⟨?_, ?_⟩
  · simp only [indentation, String.toList_append, String.toList_ofList, hmore, hless]
    show '\n' :: List.replicate (k + (m + 1)) ' ' =
      shiftLines k ('\n' :: List.replicate (m + 1) ' ')
    rw [shiftLines, hmoved, if_pos ⟨rfl, by simp [List.replicate_succ]⟩,
      List.replicate_append_replicate]
  · have hlast : ('\n' :: List.replicate (m + 1) ' ').getLast? = some ' ' := by
      rw [List.replicate_succ, List.getLast?_cons_cons, ← List.replicate_succ,
        List.getLast?_replicate, if_neg (by omega)]
    simp [indentation, hless, hlast]

/-- An empty line stays empty. -/
theorem Shifted.blank {s t : String} (h : Shifted k ("\n" ++ s) ("\n" ++ t)) :
    Shifted k ("\n" ++ ("\n" ++ s)) ("\n" ++ ("\n" ++ t)) := by
  have hlines : ∀ r : String, ("\n" ++ ("\n" ++ r)).toList = '\n' :: ("\n" ++ r).toList := by
    intro r
    rw [String.toList_append]
    rfl
  have hline : ("\n" ++ s).toList = '\n' :: s.toList := by
    rw [String.toList_append]
    rfl
  refine ⟨?_, ?_⟩
  · rw [hlines, hlines, h.text, hline]
    rfl
  · rw [hlines, hline, List.getLast?_cons_cons, ← hline]
    exact h.last

namespace Gap.Shifts

variable {g g' : Gap} (h : g.Shifts k g')

include h

/-- The gap as a text, -/
theorem text : Shifted k (Node.textAll g.nodes) (Node.textAll g'.nodes) := by
  cases h with
  | none => exact .of_unbroken (by simp [Unbroken, Gap.nodes, Node.textAll])
  | space => exact .of_unbroken (by simp [Unbroken, Gap.nodes, Node.textAll, Node.text])
  | @line column blank inside =>
    rw [textAll_line, textAll_line]
    cases blank with
    | true => exact (shifted_indentation inside).blank
    | false => simpa using shifted_indentation inside

/-- the column behind it, -/
theorem column (column : Int) : g'.column (column + k) = g.column column + k := by
  cases h with
  | none => rfl
  | space => show column + k + 1 = column + 1 + k; omega
  | line => rfl

/-- and that it does not lead left of the start. -/
theorem nonneg {column : Int} (hc : 0 ≤ column) : 0 ≤ g.column column := by
  cases h with
  | none => exact hc
  | space => show 0 ≤ column + 1; omega
  | line blank inside => exact Int.le_of_lt inside

end Gap.Shifts

end Layout

/-! ## Items -/

namespace Item

/-- The item `j` reads as `i`, moved `k` columns to the right. -/
structure Shifts (k : Nat) (i j : Item) : Prop where
  text : Layout.Shifted k (Node.textAll i.written) (Node.textAll j.written)
  closesLine : j.closesLine = i.closesLine

variable {k : Nat}

/-- The column behind an item moves along. -/
theorem Shifts.ending {i j : Item} (h : i.Shifts k j) (column : Int) :
    j.ending (column + k) = i.ending column + k :=
  h.text.endColumn column

end Item

/-- A tidy comment stays on its line if it did. -/
theorem Comment.unbroken_tidy {text : String} (h : Layout.Unbroken text) :
    Layout.Unbroken (tidy text) := by
  obtain ⟨rest, hrest⟩ := trimEnd_append text.toList
  intro hmem
  rw [tidy, String.toList_ofList] at hmem
  rcases mem_doubled hmem with hmem | hmem
  · exact h (hrest ▸ List.mem_append_left _ hmem)
  · cases hmem

namespace Item

/-- An item reads as its element between two texts that stay on their lines. -/
theorem text_written {marker comment : Option String} (hmarker : marker = none ∨ marker = some "&")
    (hcomment : ∀ text ∈ comment, Layout.Unbroken text) :
    ∃ front behind, Layout.Unbroken front ∧ Layout.Unbroken behind ∧
      ∀ n : Node, Node.textAll (Item.mk n marker comment).written = front ++ n.text ++ behind := by
  have hbehind : Layout.Unbroken (Node.textAll (trailingNodes comment)) := by
    cases comment with
    | none => simp [Layout.Unbroken, trailingNodes, Node.textAll]
    | some text =>
      simpa [Layout.Unbroken, trailingNodes, Node.textAll, Node.text] using hcomment text rfl
  rcases hmarker with rfl | rfl
  · refine ⟨"", _, by simp [Layout.Unbroken], hbehind, fun n => ?_⟩
    simp [written, inlineNodes, Node.textAll]
  · refine ⟨"&" ++ " ", _, by simp [Layout.Unbroken], hbehind, fun n => ?_⟩
    simp [-String.reduceAppend, written, inlineNodes, Node.textAll, Node.text, String.append_assoc]

/-- A comment is moved as it is. -/
theorem shifts_ofComment {k : Nat} {text : String} (h : Layout.Unbroken text) :
    (ofComment text).Shifts k (ofComment text) := by
  refine ⟨.of_unbroken ?_, rfl⟩
  simpa [written, inlineNodes, ofComment, trailingNodes, Node.textAll, Node.text] using
    Comment.unbroken_tidy h

end Item

namespace Layout

variable {k : Nat}

/-! ## Scripts -/

/-- An item and its gap, moved. -/
structure Placed.Shifts (k : Nat) (p q : Placed) : Prop where
  gap : p.gap.Shifts k q.gap
  item : p.item.Shifts k q.item

/-- A script, moved. -/
def Script.Shifts (k : Nat) (s t : Script) : Prop := List.Forall₂ (Placed.Shifts k) s t

namespace Script.Shifts

/-- Scripts are moved one behind the other, -/
theorem append {s t s' t' : Script} (h : s.Shifts k t) (h' : s'.Shifts k t') :
    (s ++ s').Shifts k (t ++ t') :=
  List.rel_append h h'

/-- entry by entry. -/
theorem one {p q : Placed} (h : p.Shifts k q) : Script.Shifts k [p] [q] := .cons h .nil

variable {s t : Script} (h : s.Shifts k t)

include h

/-- What is written is moved part by part; no item ends with a line feed, and no gap does. -/
theorem text : Shifted k (Node.textAll s.nodes) (Node.textAll t.nodes) := by
  induction h with
  | nil => exact .of_unbroken (by simp [Unbroken, Node.textAll])
  | cons hp hs ih =>
    simp only [Script.nodes_cons, Placed.nodes, Node.textAll_append]
    exact (hp.gap.text.append hp.item.text).append ih

/-- The same entry stands last. -/
theorem closesLine : t.closesLine = s.closesLine := by
  induction h with
  | nil => rfl
  | cons hp hs ih =>
    cases hs with
    | nil => exact hp.item.closesLine
    | cons hq hs => simpa [Script.closesLine, List.getLast?_cons_cons] using ih

end Script.Shifts

/-- Rows at a column further to the right, of items that are moved. -/
theorem shifts_rows {column : Int} (hc : 0 < column) {g g' : Gap} (hg : g.Shifts k g')
    {items items' : List Item} (h : List.Forall₂ (Item.Shifts k) items items') :
    (rows column g items).Shifts k (rows (column + k) g' items') := by
  induction h generalizing g g' with
  | nil => exact .nil
  | cons hi hitems ih => exact .cons ⟨hg, hi⟩ (ih (.line false hc))

/-! ## Pages -/

/-- A page, moved: what leaves it is the same, and stays on its lines. -/
structure Page.Shifts (k : Nat) (p q : Page) : Prop where
  script : p.script.Shifts k q.script
  leaving : q.leaving = p.leaving
  unbroken : ∀ text ∈ p.leaving, Unbroken text
  margin : p.script = [] ∨ (Gap.line p.margin false).Shifts k (.line q.margin false)

/-- What was laid out, moved. -/
structure Rendered.Shifts (k : Nat) (r s : Rendered) : Prop where
  text : Shifted k r.node.text s.node.text
  hoisted : s.hoisted = r.hoisted
  unbroken : ∀ text ∈ r.hoisted, Unbroken text
  isComment : s.node.isComment = r.node.isComment

/-- What is written on the page is moved, with the line break behind a comment that stands last. -/
theorem Page.Shifts.text {p q : Page} (h : p.Shifts k q) :
    Shifted k (Node.textAll p.children) (Node.textAll q.children) := by
  rw [Page.children, Page.children, h.script.closesLine, Node.textAll_append, Node.textAll_append]
  refine h.script.text.append ?_
  rcases h.margin with hnil | hmargin
  · rw [hnil]
    exact .of_unbroken (by simp [Unbroken, Script.closesLine, Node.textAll])
  · split
    · exact hmargin.text
    · exact .of_unbroken (by simp [Unbroken, Node.textAll])

/-- Brackets stay on their lines. -/
theorem unbroken_opening (b : Bracket) : Unbroken b.opening := by
  cases b <;> simp [Unbroken, Bracket.opening]

theorem unbroken_closing (b : Bracket) : Unbroken b.closing := by
  cases b <;> simp [Unbroken, Bracket.closing]

/-- A collection is moved if its page is. -/
theorem Rendered.Shows.shifts {r s : Rendered} {b : Bracket} {p q : Page} (hr : r.Shows b p)
    (hs : s.Shows b q) (h : p.Shifts k q) : r.Shifts k s := by
  refine ⟨?_, ?_, ?_, by rw [hr.node, hs.node]; rfl⟩
  · rw [hr.node, hs.node, Node.text, Node.text]
    exact ((Shifted.of_unbroken (unbroken_opening b)).append h.text).append
      (.of_unbroken (unbroken_closing b))
  · rw [hr.hoisted, hs.hoisted, h.leaving]
  · rw [hr.hoisted]
    exact h.unbroken

end Layout

end CljTidy
