/-
  Nodes that stand in front of a text.

  The tokens of a form are read again in front of every text that does not start with a character
  of a word (`Node.Stands`).  For each kind of node it is enough that its parts stand: brackets and
  marks leave what is behind them alone.  The one exception is an unquote in front of a dereference:
  `~` and `@` are one token when nothing is between them.
-/
import CljTidy.Proofs.Node.Pieces
import CljTidy.Proofs.Token.Spelling

namespace CljTidy

open Character

/-! ## Tokens with fixed spellings -/

/-- A blank is read by the reader of blanks. -/
theorem Lexeme.read_of_blank {c : Char} (h : isBlank c = true) (cs : List Char) :
    Lexeme.read c cs = Lexeme.blanks (c :: cs) := by
  have hbreak : isLineBreak c = false := by
    simp only [isBlank, Bool.and_eq_true, Bool.not_eq_true'] at h
    exact h.2
  simp [Lexeme.read, Lexeme.reader, hbreak, h]

namespace Piece

/-- A run of blanks is a token. -/
theorem whole_blanks {text : String} (hne : text.toList ≠ [])
    (h : ∀ c ∈ text.toList, isBlank c = true) : Whole ⟨.whitespace, text⟩ := by
  cases htext : text.toList with
  | nil => exact absurd htext hne
  | cons c cs =>
    rw [htext] at h
    refine ⟨c, cs, htext, fun rest hrest => ?_⟩
    have hspan := Lexeme.span_of_all h hrest
    rw [List.cons_append] at hspan
    rw [Lexeme.read_of_blank (h c (List.mem_cons_self ..)), Lexeme.blanks, Lexeme.run, hspan.1,
      hspan.2]

/-- A space, -/
theorem whole_space : Whole ⟨.whitespace, " "⟩ :=
  whole_blanks (List.cons_ne_nil _ _) fun c hc => by
    rw [List.mem_singleton.mp (show c ∈ [' '] from hc)]
    rfl

/-- a line break, -/
theorem whole_newline : Whole ⟨.newline, "\n"⟩ := ⟨'\n', [], rfl, fun _ _ => rfl⟩

/-- a caret -/
theorem whole_caret : Whole ⟨.metadata, "^"⟩ := ⟨'^', [], rfl, fun _ _ => rfl⟩

/-- and an `&` are tokens on their own, -/
theorem whole_ampersand : Whole ⟨.word, "&"⟩ := by
  have hread : (Lexeme.read '&' []).outcome = .ok (.word, "&") := by rfl
  exact Lexeme.read_again hread

/-- A token that starts with a blank is white space. -/
theorem Whole.kind_of_blank {p : Piece} (h : p.Whole) {c : Char} (hc : c ∈ p.text.toList.head?)
    (hblank : isBlank c = true) : p.kind = .whitespace := by
  obtain ⟨d, cs, htext, hread⟩ := h
  obtain rfl : d = c := by simpa [htext] using hc
  have hr := hread [] (clearOf_nil p)
  rw [Lexeme.read_of_blank hblank] at hr
  have hkind := congrArg Lexeme.outcome hr
  simp only [Lexeme.blanks, Lexeme.run, Lexeme.spelling, Except.ok.injEq, Prod.mk.injEq] at hkind
  exact hkind.1.symm

/-- A token that starts with `@` is a dereference. -/
theorem Whole.kind_of_at {p : Piece} (h : p.Whole) (hc : '@' ∈ p.text.toList.head?) :
    p.kind = .deref := by
  obtain ⟨d, cs, htext, hread⟩ := h
  obtain rfl : d = '@' := by simpa [htext] using hc
  have hr := hread [] (clearOf_nil p)
  have hsingle : Lexeme.read '@' (cs ++ []) = Lexeme.single .deref ('@' :: (cs ++ [])) := rfl
  rw [hsingle] at hr
  have hkind := congrArg Lexeme.outcome hr
  simp only [Lexeme.single, Lexeme.spelling, Except.ok.injEq, Prod.mk.injEq] at hkind
  exact hkind.1.symm

end Piece

/-- and so are the brackets of collections, opening -/
theorem Bracket.whole_piece {b : Bracket} (h : b.isCollection = true) : b.piece.Whole := by
  cases b with
  | list => exact ⟨'(', [], rfl, fun _ _ => rfl⟩
  | vector => exact ⟨'[', [], rfl, fun _ _ => rfl⟩
  | map => exact ⟨'\x7b', [], rfl, fun _ _ => rfl⟩
  | set => exact ⟨'#', ['\x7b'], rfl, fun _ _ => rfl⟩
  | document => cases h
  | fragment => cases h

/-- and closing, -/
theorem Bracket.whole_closer {b : Bracket} (h : b.isCollection = true) : b.closer.Whole := by
  cases b with
  | list => exact ⟨')', [], rfl, fun _ _ => rfl⟩
  | vector => exact ⟨']', [], rfl, fun _ _ => rfl⟩
  | map => exact ⟨'\x7d', [], rfl, fun _ _ => rfl⟩
  | set => exact ⟨'\x7d', [], rfl, fun _ _ => rfl⟩
  | document => cases h
  | fragment => cases h

/-- and the marks that are one token with a bracket. -/
theorem Mark.whole_fused {m : Mark} (h : m.fuses = true) :
    Piece.Whole ⟨m.piece.kind, m.spelling ++ "("⟩ := by
  cases m with
  | fnLiteral => exact ⟨'#', ['('], rfl, fun _ _ => rfl⟩
  | conditional splicing =>
    cases splicing with
    | false => exact ⟨'#', ['?', '('], rfl, fun _ _ => rfl⟩
    | true => exact ⟨'#', ['?', '@', '('], rfl, fun _ _ => rfl⟩
  | _ => cases h

/-! ## The first token of a form -/

/-- How a form starts: with a token that is not white space, and with an `@` only if it is a
    dereference. -/
theorem Node.Sound.starts {n : Node} (h : n.Sound) (hform : n.isForm = true) :
    ∃ p ps, n.pieces = p :: ps ∧ p.Whole ∧ p.kind ≠ .whitespace ∧
      (p.kind = .deref → ∃ x, n = .wrap .deref x) := by
  cases h with
  -- A form that is a leaf is an atom, and the kind of an atom is none of the two.
  | @leaf kind text whole atom =>
    refine ⟨_, [], rfl, whole, ?_⟩
    cases kind with
    | atom =>
      have ha := atom rfl
      constructor
      · intro hk
        rw [show Piece.kindOf text = .whitespace from hk] at ha
        exact absurd ha (by decide)
      · intro hk
        rw [show Piece.kindOf text = .deref from hk] at ha
        exact absurd ha (by decide)
    | _ => cases hform
  | @branch b cs hb children =>
    refine ⟨_, _, Node.pieces_branch hb cs, Bracket.whole_piece hb, ?_⟩
    cases b <;> exact ⟨by decide, by rintro ⟨⟩⟩
  -- One token with the bracket behind it.
  | @fused m cs hm children =>
    refine ⟨_, _, Node.pieces_fused hm cs, Mark.whole_fused hm, ?_⟩
    cases m with
    | fnLiteral => exact ⟨by decide, by rintro ⟨⟩⟩
    | conditional splicing => exact ⟨by simp [Mark.piece], by rintro ⟨⟩⟩
    | _ => cases hm
  -- Only a dereference starts with its own mark.
  | @wrap m n hm mark accepts form child =>
    obtain ⟨ps, hps⟩ : ∃ ps, (Node.wrap m n).pieces = m.piece :: ps := by
      rw [Node.pieces, Mark.join_of_not_fuses hm]
      cases m <;> exact ⟨_, rfl⟩
    refine ⟨m.piece, ps, hps, mark, ?_⟩
    cases m with
    | deref => exact ⟨by decide, fun _ => ⟨n, rfl⟩⟩
    | _ => exact ⟨by simp [Mark.piece], by rintro ⟨⟩⟩
  | annotated formData formTarget metadata target =>
    exact ⟨_, _, rfl, Piece.whole_caret, by decide, by rintro ⟨⟩⟩

/-! ## Standing in front of a text -/

/-- The text does not start with a character of a word. -/
def Stops (rest : List Char) : Prop := ∀ c ∈ rest.head?, isTokenChar c = false

/-- A text stops a word by its first character. -/
theorem stops_cons {c : Char} (h : isTokenChar c = false) (rest : List Char) :
    Stops (c :: rest) := by
  intro d hd
  obtain rfl : c = d := by simpa using hd
  exact h

/-- Nothing is taken into the token. -/
theorem Piece.clearOf_of_none {p : Piece} (h : ∀ c, p.absorbs c = false) (rest : List Char) :
    p.ClearOf rest := fun c _ => h c

/-- An atom takes in characters of words only. -/
theorem Piece.clearOf_of_stops {p : Piece} (hp : p.kind.isAtom = true) {rest : List Char}
    (h : Stops rest) : p.ClearOf rest := by
  intro c hc
  have hstop := h c hc
  obtain ⟨kind, text⟩ := p
  cases kind with
  | character => simp [Piece.absorbs, hstop]
  | word => exact hstop
  | symbolic => exact hstop
  | string => rfl
  | regex => rfl
  | _ => cases hp

namespace Node

/-- The tokens of the node are read again in front of every text that stops them. -/
def Stands (n : Node) : Prop := ∀ rest, Stops rest → Piece.Cuts rest n.pieces

/-- An atom stands: what stops a word stops it. -/
theorem stands_atom {text : String} (h : (Node.atom text).Sound) : (Node.atom text).Stands := by
  intro rest hrest
  cases h with
  | leaf whole hatom => exact ⟨whole, Piece.clearOf_of_stops (hatom rfl) hrest, trivial⟩

/-- A closing bracket stops whatever stands in front of it. -/
theorem closer_stops {b : Bracket} (h : b.isCollection = true) (rest : List Char) :
    ∃ c, b.closing.toList ++ rest = c :: rest ∧ isTokenChar c = false ∧ isBlank c = false := by
  cases b with
  | list => exact ⟨')', rfl, by decide, by decide⟩
  | vector => exact ⟨']', rfl, by decide, by decide⟩
  | map => exact ⟨'\x7d', rfl, by decide, by decide⟩
  | set => exact ⟨'\x7d', rfl, by decide, by decide⟩
  | document => cases h
  | fragment => cases h

/-- Children and a closing bracket are cut if the children are in front of it. -/
theorem cuts_closed {b : Bracket} (hb : b.isCollection = true) {cs : List Node}
    {rest : List Char} :
    Piece.Cuts rest (piecesAll cs ++ [b.closer]) ↔
      Piece.Cuts (b.closing.toList ++ rest) (piecesAll cs) := by
  have hchars : Piece.chars [b.closer] = b.closing.toList := by simp [Bracket.closer]
  rw [Piece.cuts_append, hchars]
  refine ⟨fun h => h.1, fun h => ⟨h, Bracket.whole_closer hb, ?_, trivial⟩⟩
  exact Piece.clearOf_of_none (fun c => rfl) _

/-- A collection is cut if its children are in front of the closing bracket. -/
theorem cuts_branch {b : Bracket} (hb : b.isCollection = true) {cs : List Node} {rest : List Char}
    (h : Piece.Cuts (b.closing.toList ++ rest) (piecesAll cs)) :
    Piece.Cuts rest (Node.branch b cs).pieces := by
  rw [pieces_branch hb]
  refine ⟨Bracket.whole_piece hb, Piece.clearOf_of_none (fun c => ?_) _, (cuts_closed hb).mpr h⟩
  cases b <;> rfl

/-- So a collection stands if its children do in front of its bracket. -/
theorem stands_branch {b : Bracket} (hb : b.isCollection = true) {cs : List Node}
    (h : ∀ rest, Stops rest → Piece.Cuts (b.closing.toList ++ rest) (piecesAll cs)) :
    (Node.branch b cs).Stands :=
  fun rest hrest => cuts_branch hb (h rest hrest)

/-- A mark that is one token with the bracket of a list is cut if the list is. -/
theorem cuts_fused {m : Mark} (hm : m.fuses = true) {cs : List Node} {rest : List Char}
    (h : Piece.Cuts rest (Node.list cs).pieces) :
    Piece.Cuts rest (Node.wrap m (.list cs)).pieces := by
  rw [pieces_branch rfl] at h
  rw [pieces_fused hm]
  refine ⟨Mark.whole_fused hm, Piece.clearOf_of_none (fun c => ?_) _, h.2.2⟩
  cases m <;> first | rfl | cases hm

/-- A mark that is one token with the bracket of a list stands if the list does. -/
theorem stands_fused {m : Mark} (hm : m.fuses = true) {cs : List Node} (h : (Node.list cs).Stands) :
    (Node.wrap m (.list cs)).Stands :=
  fun rest hrest => cuts_fused hm (h rest hrest)

/-- The text of a form starts with a character that is not a blank. -/
theorem Sound.head_chars {n : Node} (h : n.Sound) (hform : n.isForm = true) :
    ∃ c cs, Piece.chars n.pieces = c :: cs ∧ isBlank c = false ∧
      (c = '@' → ∃ x, n = .wrap .deref x) := by
  obtain ⟨p, ps, hps, hwhole, hblank, hderef⟩ := h.starts hform
  obtain ⟨c, cs, htext, hread⟩ := hwhole
  have hwhole : p.Whole := ⟨c, cs, htext, hread⟩
  have hhead : c ∈ p.text.toList.head? := by rw [htext]; rfl
  refine ⟨c, cs ++ Piece.chars ps, by rw [hps, Piece.chars_cons, htext]; rfl, ?_, ?_⟩
  · cases hb : isBlank c with
    | false => rfl
    | true => exact absurd (hwhole.kind_of_blank hhead hb) hblank
  · rintro rfl
    exact hderef (hwhole.kind_of_at hhead)

/-- A space is left alone by what is not a blank. -/
theorem clearOf_space {c : Char} (h : isBlank c = false) (rest : List Char) :
    Piece.ClearOf ⟨.whitespace, " "⟩ (c :: rest) := by
  intro d hd
  obtain rfl : c = d := by simpa using hd
  exact h

/-- A mark is cut in front of its form, unless both are read as one. -/
theorem cuts_wrap {m : Mark} {n : Node} (h : (Node.wrap m n).Sound) (hm : m.fuses = false)
    (hderef : m = .unquote → ∀ x, n ≠ .wrap .deref x) {rest : List Char}
    (hn : Piece.Cuts rest n.pieces) : Piece.Cuts rest (Node.wrap m n).pieces := by
  cases h with
  | fused hm' _ => rw [hm] at hm'; cases hm'
  | wrap _ whole accepts form child =>
    obtain ⟨c, cs, hchars, hblank, hat⟩ := child.head_chars form
    rw [pieces, Mark.join_of_not_fuses hm]
    refine Piece.cuts_append.mpr ⟨?_, hn⟩
    rw [hchars]
    cases m with
    | tagged tag =>
      refine ⟨whole, ?_, Piece.whole_space, clearOf_space hblank _, trivial⟩
      exact fun d hd => by
        obtain rfl : ' ' = d := by simpa using hd
        rfl
    | namespaced ns =>
      -- Only a map may follow, and a bracket ends the name.
      have hmap : n.isMap = true := accepts
      obtain ⟨ds, rfl⟩ : ∃ ds, n = .map ds := by
        rcases n with _ | ⟨_ | _ | _ | _ | _ | _, ds⟩ | _ | _ | _ <;>
          first | exact ⟨_, rfl⟩ | cases hmap
      obtain rfl : c = '\x7b' := by
        rw [pieces_branch rfl] at hchars
        exact (List.cons.inj hchars).1.symm
      refine ⟨whole, fun d hd => ?_, trivial⟩
      obtain rfl : '\x7b' = d := by simpa using hd
      rfl
    | unquote =>
      refine ⟨whole, fun d hd => ?_, trivial⟩
      obtain rfl : c = d := by simpa using hd
      have hne : c ≠ '@' := fun hc => by
        obtain ⟨x, hx⟩ := hat hc
        exact hderef rfl x hx
      simpa [Piece.absorbs, Mark.piece] using hne
    | fnLiteral => cases hm
    | conditional => cases hm
    | _ => exact ⟨whole, Piece.clearOf_of_none (fun _ => rfl) _, trivial⟩

/-- So a mark stands with its form, unless it is an unquote in front of a dereference. -/
theorem stands_wrap {m : Mark} {n : Node} (h : (Node.wrap m n).Sound) (hm : m.fuses = false)
    (hn : n.Stands) (hderef : m = .unquote → ∀ x, n ≠ .wrap .deref x) :
    (Node.wrap m n).Stands :=
  fun rest hrest => cuts_wrap h hm hderef (hn rest hrest)

/-- Metadata is cut in front of the space behind it, and its target in front of the text. -/
theorem cuts_annotated {m t : Node} (h : (Node.annotated m t).Sound) {rest : List Char}
    (hm : ∀ behind, Piece.Cuts (' ' :: behind) m.pieces) (ht : Piece.Cuts rest t.pieces) :
    Piece.Cuts rest (Node.annotated m t).pieces := by
  cases h with
  | annotated formData formTarget metadata target =>
    obtain ⟨c, cs, hchars, hblank, -⟩ := target.head_chars formTarget
    refine ⟨Piece.whole_caret, Piece.clearOf_of_none (fun _ => rfl) _, ?_⟩
    refine Piece.cuts_append.mpr ⟨hm _, Piece.whole_space, ?_, ht⟩
    rw [hchars]
    exact clearOf_space hblank _

/-- So metadata and its target stand if both do. -/
theorem stands_annotated {m t : Node} (h : (Node.annotated m t).Sound) (hm : m.Stands)
    (ht : t.Stands) : (Node.annotated m t).Stands :=
  fun rest hrest =>
    cuts_annotated h (fun behind => hm _ (stops_cons (by decide) behind)) (ht rest hrest)

end Node

end CljTidy
