/-
  Scripts are read back token by token.

  In a script that flows, of items whose elements stand, every token is read again: gaps keep words
  apart and end comments.  So the children of a page stand in front of the closing bracket, and a
  document stands by itself.
-/
import CljTidy.Proofs.Item.Grouping
import CljTidy.Proofs.Layout.Flow
import CljTidy.Proofs.Node.Stand

namespace CljTidy

open Character

/-! ## Items -/

/-- The item can be written: it is a comment, or made of a sound form that stands. -/
def Item.Neat (i : Item) : Prop :=
  i.Made (fun n => n.Sound ∧ n.Stands) fun text => Comment.IsComment text.toList

/-- The text is over or starts with a line break. -/
def Breaks (rest : List Char) : Prop := ∀ c ∈ rest.head?, isLineBreak c = true

/-- A line break stops a word. -/
theorem Breaks.stops {rest : List Char} (h : Breaks rest) : Stops rest :=
  fun c hc => isTokenChar_of_isLineBreak (h c hc)

/-- What layout adds is sound: a space, -/
theorem sound_space : (Node.space " ").Sound := .leaf Piece.whole_space (by rintro ⟨⟩)

/-- a line break, -/
theorem sound_newline : (Node.newline "\n").Sound := .leaf Piece.whole_newline (by rintro ⟨⟩)

/-- a comment, -/
theorem sound_comment {text : String} (h : Comment.IsComment text.toList) :
    (Node.comment text).Sound := .leaf (Piece.whole_comment h) (by rintro ⟨⟩)

/-- and an `&` in front of an element. -/
theorem sound_ampersand : (Node.atom "&").Sound := by
  have hkind : Piece.kindOf "&" = .word := Piece.whole_ampersand.kindOf_eq
  refine .leaf ?_ fun _ => by rw [hkind]; rfl
  show Piece.Whole ⟨Piece.kindOf "&", "&"⟩
  rw [hkind]
  exact Piece.whole_ampersand

/-- The first character of a comment is not a blank. -/
theorem head_comment {text : String} (h : Comment.IsComment text.toList) :
    ∃ c cs, text.toList = c :: cs ∧ isBlank c = false := by
  cases htext : text.toList with
  | nil =>
    rw [htext] at h
    rcases h.1 with h | h <;> cases h
  | cons c cs =>
    rw [htext] at h
    refine ⟨c, cs, rfl, ?_⟩
    rcases h.1 with h | h
    · obtain rfl : c = ';' := by simpa using h
      decide
    · obtain rfl : c = '#' := by
        cases cs with
        | nil => simp at h
        | cons d ds => simp only [List.take_succ_cons, List.cons.injEq] at h; exact h.1
      decide

namespace Item.Neat

variable {i : Item}

/-- Everything on the line of an item is sound. -/
theorem sound_written (h : i.Neat) : ∀ n ∈ i.written, n.Sound := by
  cases h with
  | comment hc =>
    intro n hn
    obtain rfl : n = .comment _ := by simpa [written, inlineNodes, trailingNodes] using hn
    exact sound_comment hc
  | @element node marker comment form made marked trailing =>
    obtain ⟨sound, stands⟩ := made
    have hmarker : ∀ text ∈ marker, (Node.atom text).Sound := by
      rcases marked with rfl | rfl
      · rintro text ⟨⟩
      · rintro text ⟨⟩
        exact sound_ampersand
    exact List.forall_mem_append.mpr ⟨forall_inlineNodes sound_space hmarker sound,
      forall_trailingNodes sound_space fun text htext => sound_comment (trailing text htext)⟩

/-- An item starts with something visible. -/
theorem head_written (h : i.Neat) :
    ∃ c cs, Piece.chars (Node.piecesAll i.written) = c :: cs ∧ isBlank c = false := by
  cases h with
  | @comment text hc =>
    obtain ⟨c, cs, htext, hblank⟩ := head_comment hc
    refine ⟨c, cs, ?_, hblank⟩
    simpa [written, inlineNodes, trailingNodes, Node.piecesAll, Node.pieces, LeafKind.piece]
      using htext
  | @element node marker comment form made marked trailing =>
    obtain ⟨sound, stands⟩ := made
    obtain ⟨c, cs, hchars, hblank, -⟩ := sound.head_chars form
    rcases marked with rfl | rfl
    · exact ⟨c, _, by
        simp only [written, inlineNodes, List.nil_append, List.cons_append, Node.piecesAll,
          Piece.chars_append, hchars]
        rfl, hblank⟩
    · exact ⟨'&', _, rfl, by decide⟩

/-- A trailing comment, in front of the end of its line. -/
theorem cuts_trailing {text : String} (h : Comment.IsComment text.toList) {rest : List Char}
    (hrest : Breaks rest) : Piece.Cuts rest [⟨.whitespace, " "⟩, ⟨.comment, text⟩] := by
  obtain ⟨c, cs, htext, hblank⟩ := head_comment h
  refine ⟨Piece.whole_space, ?_, Piece.whole_comment h, fun c hc => ?_, trivial⟩
  · rw [Piece.chars_cons, htext]
    exact Node.clearOf_space hblank _
  · simp only [Piece.absorbs, hrest c hc]
    rfl

/-- Its tokens are read again in front of what stops a word, behind a comment only at the end of a
    line. -/
theorem cuts_written (h : i.Neat) {rest : List Char} (hstop : Stops rest)
    (hbreak : i.closesLine = true → Breaks rest) : Piece.Cuts rest (Node.piecesAll i.written) := by
  cases h with
  | @comment text hc =>
    refine ⟨Piece.whole_comment hc, fun c hc => ?_, trivial⟩
    simp only [LeafKind.piece, Piece.absorbs, hbreak rfl c hc]
    rfl
  | @element node marker comment form made marked trailing =>
    obtain ⟨sound, stands⟩ := made
    obtain ⟨c, cs, hchars, hblank, -⟩ := sound.head_chars form
    -- The element and its comment first, then the marker in front.
    have hbody : Piece.Cuts rest (node.pieces ++ Node.piecesAll (trailingNodes comment)) := by
      cases comment with
      | none =>
        simp only [trailingNodes, Node.piecesAll, List.append_nil]
        exact stands rest hstop
      | some text =>
        have htrailing := cuts_trailing (trailing text rfl)
          (hbreak (by simp [closesLine]))
        refine Piece.cuts_append.mpr ⟨stands _ (stops_cons (c := ' ') (by decide) _), htrailing⟩
    rcases marked with rfl | rfl
    · simpa [written, inlineNodes, Node.piecesAll] using hbody
    · have hkind : Piece.kindOf "&" = .word := Piece.whole_ampersand.kindOf_eq
      show Piece.Cuts rest (⟨Piece.kindOf "&", "&"⟩ :: ⟨.whitespace, " "⟩ :: _)
      rw [hkind]
      refine ⟨Piece.whole_ampersand, ?_, Piece.whole_space, ?_, hbody⟩
      · intro d hd
        obtain rfl : ' ' = d := by simpa using hd
        decide
      · show Piece.ClearOf _ (Piece.chars (node.pieces ++ _) ++ rest)
        rw [Piece.chars_append, hchars]
        exact Node.clearOf_space hblank _

end Item.Neat

namespace Layout

/-! ## Gaps -/

/-- A gap is not left of the first column. -/
def Gap.Nonneg : Gap → Prop
  | .line column _ => 0 ≤ column
  | _ => True

/-- Indentation is spaces, -/
theorem indentation_chars (column : Int) :
    (indentation column).toList = List.replicate column.toNat ' ' := String.toList_ofList

/-- read as one token where there are any. -/
theorem whole_indentation {column : Int} (h : 0 ≤ column) (hne : column ≠ 0) :
    Piece.Whole ⟨.whitespace, indentation column⟩ := by
  refine Piece.whole_blanks ?_ ?_
  · rw [indentation_chars]
    intro hnil
    have := congrArg List.length hnil
    simp only [List.length_replicate, List.length_nil] at this
    omega
  · intro c hc
    rw [indentation_chars] at hc
    obtain rfl := (List.mem_replicate.mp hc).2
    decide

/-- So every gap is sound. -/
theorem sound_gap {g : Gap} (hg : g.Nonneg) : ∀ n ∈ g.nodes, n.Sound := by
  cases g with
  | none => intro n hn; cases hn
  | space =>
    intro n hn
    obtain rfl := List.mem_singleton.mp hn
    exact sound_space
  | line column blank =>
    intro n hn
    simp only [Gap.nodes, Buffer.breakNodes, List.mem_append, List.mem_cons] at hn
    rcases hn with (rfl | hn) | hn
    · exact sound_newline
    · cases blank with
      | false => cases hn
      | true =>
        obtain rfl := List.mem_singleton.mp hn
        exact sound_newline
    · by_cases hc : column = 0
      · rw [if_pos hc] at hn; cases hn
      · rw [if_neg hc] at hn
        obtain rfl := List.mem_singleton.mp hn
        exact .leaf (whole_indentation hg hc) (by rintro ⟨⟩)

/-- A gap in front of something that does not start with a blank. -/
theorem cuts_gap {g : Gap} (hg : g.Nonneg) {rest : List Char}
    (hrest : ∀ c ∈ rest.head?, isBlank c = false) : Piece.Cuts rest (Node.piecesAll g.nodes) := by
  have hnewline : ∀ rest, Piece.ClearOf ⟨.newline, "\n"⟩ rest :=
    Piece.clearOf_of_none fun _ => rfl
  cases g with
  | none => trivial
  | space => exact ⟨Piece.whole_space, hrest, trivial⟩
  | line column blank =>
    have hend : Piece.Cuts rest (Node.piecesAll
        (if column = 0 then [] else [.space (indentation column)])) := by
      by_cases hc : column = 0
      · rw [if_pos hc]; trivial
      · rw [if_neg hc]
        exact ⟨whole_indentation hg hc, hrest, trivial⟩
    cases blank with
    | false => exact ⟨Piece.whole_newline, hnewline _, hend⟩
    | true => exact ⟨Piece.whole_newline, hnewline _, Piece.whole_newline, hnewline _, hend⟩

/-! ## Scripts -/

/-- A gap that fits does not go left of the first column. -/
theorem Placed.Fits.nonneg {p : Placed} {before : Option Item} (h : p.Fits 0 before) :
    p.gap.Nonneg := by
  obtain ⟨g, i⟩ := p
  cases before with
  | none => obtain rfl : g = .none := h; trivial
  | some before =>
    cases g with
    | line column blank => exact h
    | _ => trivial

/-- What follows an item in a script that flows stops it, and breaks the line behind a comment. -/
theorem stops_next {i : Item} {s : Script} (h : Flows 0 (some i) s) {rest : List Char}
    (hstop : Stops rest) (hbreak : ∀ j ∈ lastItem (some i) s, j.closesLine = true → Breaks rest) :
    Stops (Piece.chars (Node.piecesAll s.nodes) ++ rest) ∧
      (i.closesLine = true → Breaks (Piece.chars (Node.piecesAll s.nodes) ++ rest)) := by
  cases s with
  | nil => exact ⟨hstop, hbreak i rfl⟩
  | cons p s =>
    obtain ⟨g, j⟩ := p
    have hfits := h.1
    cases g with
    | none => exact hfits.elim
    | space =>
      refine ⟨stops_cons (c := ' ') (by decide) _, fun hi => ?_⟩
      rw [hfits.1] at hi
      cases hi
    | line column blank =>
      have hbreaks : ∀ cs, Breaks ('\n' :: cs) := by
        intro cs c hc
        obtain rfl : '\n' = c := by simpa using hc
        rfl
      have hchars : ∃ cs, Piece.chars (Node.piecesAll (Script.nodes (⟨.line column blank, j⟩ :: s)))
          ++ rest = '\n' :: cs := ⟨_, rfl⟩
      obtain ⟨cs, hcs⟩ := hchars
      rw [hcs]
      exact ⟨(hbreaks cs).stops, fun _ => hbreaks cs⟩

/-- A script that flows is made of sound nodes. -/
theorem sound_script {before : Option Item} {s : Script} (h : Flows 0 before s)
    (hneat : ∀ i ∈ s.items, i.Neat) : ∀ n ∈ s.nodes, n.Sound := by
  induction s generalizing before with
  | nil => intro n hn; cases hn
  | cons p s ih =>
    intro n hn
    simp only [Script.nodes_cons, Placed.nodes, List.mem_append] at hn
    rcases hn with (hn | hn) | hn
    · exact sound_gap h.1.nonneg n hn
    · exact (hneat p.item (by simp)).sound_written n hn
    · exact ih h.2 (fun i hi => hneat i (by simp [hi])) n hn

/-- **Scripts.**  In a script that flows, every token is read again. -/
theorem cuts_script {before : Option Item} {s : Script} (h : Flows 0 before s)
    (hneat : ∀ i ∈ s.items, i.Neat) {rest : List Char} (hstop : Stops rest)
    (hbreak : ∀ i ∈ lastItem before s, i.closesLine = true → Breaks rest) :
    Piece.Cuts rest (Node.piecesAll s.nodes) := by
  induction s generalizing before with
  | nil => trivial
  | cons p s ih =>
    have hp := hneat p.item (by simp)
    obtain ⟨hnext, hnextBreak⟩ := stops_next h.2 hstop hbreak
    rw [Script.nodes_cons, Placed.nodes, List.append_assoc, Node.piecesAll_append,
      Node.piecesAll_append]
    refine Piece.cuts_append.mpr ⟨cuts_gap h.1.nonneg ?_, Piece.cuts_append.mpr
      ⟨hp.cuts_written hnext hnextBreak, ih h.2 (fun i hi => hneat i (by simp [hi])) hbreak⟩⟩
    obtain ⟨c, cs, hchars, hblank⟩ := hp.head_written
    rw [Piece.chars_append, hchars]
    intro d hd
    obtain rfl : c = d := by simpa using hd
    exact hblank

/-- Whether a script ends with a comment is told by its last item. -/
theorem closesLine_eq (s : Script) :
    s.closesLine = (lastItem none s).any Item.closesLine := by
  have h : ∀ (s : Script) (before : Option Item),
      lastItem before s = (s.getLast?.map Placed.item).or before := by
    intro s
    induction s with
    | nil => intro before; rfl
    | cons p s ih =>
      intro before
      rw [show lastItem before (p :: s) = lastItem (some p.item) s from rfl, ih]
      cases s with
      | nil => rfl
      | cons q s => simp [List.getLast?_cons]
  rw [h]
  cases hs : s.getLast? <;> simp [Script.closesLine, hs]

/-! ## Pages -/

/-- The page is one that is read back: it flows, and its items can be written. -/
structure Page.Clean (p : Page) : Prop where
  flows : Flows 0 none p.script
  neat : ∀ i ∈ p.script.items, i.Neat
  margin : 0 ≤ p.margin

/-- The children of a clean page are sound, -/
theorem Page.Clean.sound {p : Page} (h : p.Clean) : ∀ n ∈ p.children, n.Sound := by
  intro n hn
  rcases List.mem_append.mp hn with hn | hn
  · exact sound_script h.flows h.neat n hn
  · by_cases hclose : p.script.closesLine = true
    · rw [if_pos hclose] at hn
      exact sound_gap (g := .line p.margin false) h.margin n hn
    · rw [if_neg hclose] at hn
      cases hn

/-- The children of a clean page stand in front of a closing bracket. -/
theorem Page.Clean.cuts {p : Page} (h : p.Clean) {c : Char} {rest : List Char}
    (hc : isTokenChar c = false) (hblank : isBlank c = false) :
    Piece.Cuts (c :: rest) (Node.piecesAll p.children) := by
  unfold Page.children
  rw [Node.piecesAll_append]
  have hlast := closesLine_eq p.script
  by_cases hclose : p.script.closesLine = true
  · rw [if_pos hclose]
    refine Piece.cuts_append.mpr ⟨?_, cuts_gap (g := .line p.margin false) h.margin ?_⟩
    · have hbreaks :
          Breaks (Piece.chars (Node.piecesAll (Gap.line p.margin false).nodes) ++ c :: rest) := by
        intro d hd
        obtain rfl : '\n' = d := Option.some.inj hd
        rfl
      exact cuts_script h.flows h.neat hbreaks.stops fun _ _ _ => hbreaks
    · intro d hd
      obtain rfl : c = d := by simpa using hd
      exact hblank
  · rw [if_neg hclose, Node.piecesAll, List.append_nil]
    refine cuts_script h.flows h.neat (stops_cons hc rest) fun i hi hclosed => ?_
    rw [hlast, hi] at hclose
    exact absurd hclosed hclose

/-- and with the closing bracket they stand in front of any text. -/
theorem Page.Clean.stands {p : Page} (h : p.Clean) {b : Bracket} (hb : b.isCollection = true)
    (rest : List Char) : Piece.Cuts (b.closing.toList ++ rest) (Node.piecesAll p.children) := by
  obtain ⟨c, hc, htoken, hblank⟩ := Node.closer_stops hb rest
  rw [hc]
  exact h.cuts htoken hblank

end Layout

end CljTidy
