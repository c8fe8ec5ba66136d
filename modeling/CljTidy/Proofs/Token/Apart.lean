/-
  Tokens set apart by space and commas.

  A gap is any run of white space and commas, line breaks of every spelling among them.  Cutting
  passes over a gap without a word of code (`Says.gap`): each reader that a gap character picks
  takes gap characters only, so the gap gets shorter until what stands behind it is reached.  A
  token of code never starts with a gap character and never takes one in, so it is left as it is by
  the gap behind it (`Says.piece`).  Together: the code of a text, written with gaps of any kind
  between its tokens, is cut into the same code again, and nothing else comes of it
  (`tokenize_spaced`).
-/
import CljTidy.Proofs.Node.Content
import CljTidy.Proofs.Token.Span

namespace CljTidy

open Character

/-! ## Gaps -/

/-- White space of any kind, and the comma, which counts as such. -/
def Character.isGap (c : Char) : Bool := isSpace c || c == ','

/-- Texts in a row, each but the last with its gap behind it. -/
def spaced (texts gaps : List String) : String :=
  String.join (List.zipWith (· ++ ·) texts (gaps ++ [""]))

theorem isGap_cases {c : Char} (h : isGap c = true) :
    isLineBreak c = true ∨ isLineBreak c = false ∧ isBlank c = true ∨
      isLineBreak c = false ∧ isBlank c = false ∧ c = ',' := by
  cases hbreak : isLineBreak c with
  | true => exact .inl rfl
  | false =>
    rcases (by simpa [isGap] using h : isSpace c = true ∨ c = ',') with hspace | rfl
    · exact .inr (.inl ⟨rfl, by simp [isBlank, hspace, hbreak]⟩)
    · exact .inr (.inr ⟨rfl, by decide, rfl⟩)

/-- A character that goes into a token of code is no gap. -/
theorem Piece.absorbs_gap {p : Piece} (hcode : p.kind.isCode = true) {c : Char}
    (hc : isGap c = true) : p.absorbs c = false := by
  have htoken : isTokenChar c = false := by
    rcases (by simpa [isGap] using hc : isSpace c = true ∨ c = ',') with hspace | rfl
    · simp [isTokenChar, hspace]
    · decide
  have hat : (c == '@') = false := by
    refine beq_false_of_ne ?_
    rintro rfl
    revert hc
    decide
  obtain ⟨kind, text⟩ := p
  cases kind <;> simp_all [Piece.absorbs, TokenKind.isCode]

namespace Lexeme

/-- A line break at the front of a gap ends inside it: if it has a second character, that one is a
    gap as well. -/
theorem newline_gap {c : Char} {gap rest : List Char} (hrest : ∀ d ∈ rest.head?, isGap d = false) :
    ∃ gap', (newline (c :: (gap ++ rest))).rest = gap' ++ rest ∧ gap' <:+ gap ∧
      ∃ kind value, (newline (c :: (gap ++ rest))).outcome = .ok (kind, value) ∧
        kind.isTrivia = true := by
  by_cases hpair : ∃ ds, c = '\r' ∧ gap ++ rest = '\n' :: ds
  · obtain ⟨ds, rfl, hds⟩ := hpair
    cases gap with
    | nil =>
      have hgap := hrest '\n' (by rw [← List.nil_append rest, hds]; rfl)
      cases hgap
    | cons d gap =>
      obtain ⟨rfl, -⟩ := List.cons.inj hds
      exact ⟨gap, rfl, List.suffix_cons _ _, _, _, rfl, rfl⟩
  · have hone : newline (c :: (gap ++ rest)) = fixed .newline "\n" [c] (gap ++ rest) := by
      rw [newline]
      intro ds hc hds
      exact hpair ⟨ds, hc, hds⟩
    rw [hone]
    exact ⟨gap, rfl, List.suffix_rfl, _, _, rfl, rfl⟩

/-- The reader that a gap character picks takes characters of the gap only, and what it takes is
    trivia. -/
theorem read_gap {c : Char} (hc : isGap c = true) (gap : List Char) {rest : List Char}
    (hrest : ∀ d ∈ rest.head?, isGap d = false) :
    ∃ gap', (read c (gap ++ rest)).rest = gap' ++ rest ∧ gap' <:+ gap ∧
      ∃ kind value, (read c (gap ++ rest)).outcome = .ok (kind, value) ∧ kind.isTrivia = true := by
  -- A run of a class of gap characters ends with the gap at the latest.
  have hrun : ∀ p : Char → Bool, (∀ d, p d = true → isGap d = true) →
      (gap ++ rest).dropWhile p = gap.dropWhile p ++ rest := by
    intro p hp
    have hstop : rest.dropWhile p = rest := by
      cases rest with
      | nil => rfl
      | cons d rest =>
        have hd : ¬ p d = true := fun h => by
          have hgap := hrest d rfl
          rw [hp d h] at hgap
          cases hgap
        exact List.dropWhile_cons_of_neg hd
    rw [List.dropWhile_append, hstop]
    split
    · rename_i hnil
      rw [List.isEmpty_iff.mp hnil, List.nil_append]
    · rfl
  rcases isGap_cases hc with hbreak | ⟨hbreak, hblank⟩ | ⟨hbreak, hblank, rfl⟩
  · have hread : read c (gap ++ rest) = newline (c :: (gap ++ rest)) := by
      simp [read, reader, hbreak]
    rw [hread]
    exact newline_gap hrest
  · have hread : read c (gap ++ rest) = blanks (c :: (gap ++ rest)) := by
      simp [read, reader, hbreak, hblank]
    refine ⟨gap.dropWhile isBlank, ?_, List.dropWhile_suffix _, .whitespace, _,
      by rw [hread]; rfl, rfl⟩
    rw [hread]
    show List.dropWhile isBlank (c :: (gap ++ rest)) = _
    rw [List.dropWhile_cons_of_pos hblank, hrun isBlank]
    intro d hd
    simp only [isBlank, Bool.and_eq_true] at hd
    simp [isGap, hd.1]
  · have hread : read ',' (gap ++ rest) = commas (',' :: (gap ++ rest)) := by
      simp [read, reader, hbreak, hblank]
    refine ⟨gap.dropWhile (· == ','), ?_, List.dropWhile_suffix _, .comma, _,
      by rw [hread]; rfl, rfl⟩
    rw [hread]
    show List.dropWhile (· == ',') (',' :: (gap ++ rest)) = _
    rw [List.dropWhile_cons_of_pos (by decide), hrun (· == ',')]
    intro d hd
    simp only [isGap, hd, Bool.or_true]

end Lexeme

/-- A token of code starts with a character that is no gap. -/
theorem Piece.Whole.head_isGap {p : Piece} (hwhole : p.Whole) (hcode : p.kind.isCode = true)
    (rest : List Char) : ∀ c ∈ (p.text.toList ++ rest).head?, isGap c = false := by
  obtain ⟨c, cs, htext, hread⟩ := hwhole
  intro d hd
  rw [htext] at hd
  obtain rfl : c = d := by simpa using hd
  -- Otherwise the token would be read as trivia.
  by_contra hgap
  have hend : ∀ d ∈ ([] : List Char).head?, isGap d = false := by simp
  obtain ⟨-, -, -, kind, value, hok, htrivia⟩ :=
    Lexeme.read_gap (by simpa using hgap) cs hend
  rw [hread [] p.clearOf_nil] at hok
  obtain ⟨rfl, -⟩ : p.kind = kind ∧ String.ofList (c :: cs) = value := by
    simpa [Lexeme.spelling] using hok
  revert hcode htrivia
  cases p.kind <;> simp [TokenKind.isCode, TokenKind.isTrivia]

/-! ## What a scan says -/

/-- Tokens that are neither trivia nor the end of the text. -/
def TokenKind.isSaid (kind : TokenKind) : Bool := !kind.isTrivia && kind != .endOfText

/-- The text was cut to its end, and these are its tokens but for trivia. -/
def Scan.Says (scan : Scan) (said : List (TokenKind × Option String)) : Prop :=
  scan.fault = none ∧ (scan.tokens.filter fun t => t.kind.isSaid).map Token.said = said

/-- The characters say this much wherever they stand. -/
def Says (cs : List Char) (said : List (TokenKind × Option String)) : Prop :=
  ∀ span position, (Scan.from span position cs).Says said

namespace Says

variable {cs : List Char} {said : List (TokenKind × Option String)}

theorem nil : Says [] [] := by
  intro span position
  rw [Scan.from]
  exact ⟨rfl, rfl⟩

/-- One token in front: it is said unless it is trivia. -/
theorem read {c : Char} {kind : TokenKind} {value : String}
    (hok : (Lexeme.read c cs).outcome = .ok (kind, value))
    (h : Says (Lexeme.read c cs).rest said) :
    Says (c :: cs) (if kind.isSaid then (kind, some value) :: said else said) := by
  intro span position
  rw [Scan.from_of_ok hok span position]
  obtain ⟨hfault, hsaid⟩ := h (Lexeme.read c cs).taken (position.after (Lexeme.read c cs).taken)
  refine ⟨hfault, ?_⟩
  cases hkind : kind.isSaid with
  | true => simpa [hkind, Token.said] using hsaid
  | false => simpa [hkind] using hsaid

/-- A gap in front says nothing. -/
theorem gap {gap : List Char} (hgap : ∀ c ∈ gap, isGap c = true)
    (hhead : ∀ c ∈ cs.head?, isGap c = false) (h : Says cs said) : Says (gap ++ cs) said := by
  -- One reader takes a part of the gap off its front, so the gap that is left is shorter.
  induction hlength : gap.length using Nat.strongRecOn generalizing gap with
  | _ n ih =>
    cases gap with
    | nil => exact h
    | cons c gap =>
      obtain ⟨gap', hrest, hsuffix, kind, value, hok, htrivia⟩ :=
        Lexeme.read_gap (hgap c List.mem_cons_self) gap hhead
      have hshorter : gap'.length < n := by
        have hle := hsuffix.length_le
        rw [← hlength, List.length_cons]
        omega
      have hleft : Says (gap' ++ cs) said :=
        ih gap'.length hshorter
          (fun d hd => hgap d (List.mem_cons_of_mem c (hsuffix.subset hd))) rfl
      have hstep := read hok (hrest ▸ hleft)
      simpa [TokenKind.isSaid, htrivia] using hstep

/-- A token of code in front of what leaves it alone is said. -/
theorem piece {p : Piece} (hwhole : p.Whole) (hcode : p.kind.isCode = true) (hclear : p.ClearOf cs)
    (h : Says cs said) : Says (p.text.toList ++ cs) (p.said :: said) := by
  obtain ⟨c, ds, htext, hread⟩ := hwhole
  have hr := hread cs hclear
  have hvalue : String.ofList (c :: ds) = p.text := by rw [← htext, String.ofList_toList]
  have hsaid : p.kind.isSaid = true := by
    revert hcode
    cases p.kind <;> decide
  have hok : (Lexeme.read c (ds ++ cs)).outcome = .ok (p.kind, p.text) := by
    rw [hr, ← hvalue]
    rfl
  have hrest : Says (Lexeme.read c (ds ++ cs)).rest said := by
    rw [hr]
    exact h
  have hstep := read hok hrest
  rw [if_pos hsaid] at hstep
  rw [htext]
  exact hstep

/-- Tokens of code with gaps between them are said one after the other. -/
theorem spaced {ps : List Piece} (hwhole : ∀ p ∈ ps, p.Whole ∧ p.kind.isCode = true)
    {gaps : List String} (hlength : gaps.length = ps.length - 1)
    (hgaps : ∀ gap ∈ gaps, gap ≠ "" ∧ ∀ c ∈ gap.toList, isGap c = true) :
    Says (CljTidy.spaced (ps.map Piece.text) gaps).toList (ps.map Piece.said) := by
  induction ps generalizing gaps with
  | nil => exact nil
  | cons p ps ih =>
    obtain ⟨hp, hcode⟩ := hwhole p List.mem_cons_self
    cases ps with
    | nil =>
      obtain rfl : gaps = [] := List.length_eq_zero_iff.mp hlength
      have hlast := piece hp hcode p.clearOf_nil nil
      simpa [CljTidy.spaced] using hlast
    | cons q ps =>
      obtain ⟨gap, gaps, rfl⟩ : ∃ gap more, gaps = gap :: more := by
        cases gaps with
        | nil => simp at hlength
        | cons gap gaps => exact ⟨gap, gaps, rfl⟩
      obtain ⟨hq, hqcode⟩ := hwhole q (by simp)
      obtain ⟨hne, hall⟩ := hgaps gap List.mem_cons_self
      have hmore := ih (fun p hp => hwhole p (List.mem_cons_of_mem _ hp))
        (by simpa using hlength) fun gap hgap => hgaps gap (List.mem_cons_of_mem _ hgap)
      -- The next token shows its first character behind the gap.
      have hhead : ∀ c ∈ (CljTidy.spaced ((q :: ps).map Piece.text) gaps).toList.head?,
          isGap c = false := by
        obtain ⟨rest, hrest⟩ : ∃ rest,
            (CljTidy.spaced ((q :: ps).map Piece.text) gaps).toList = q.text.toList ++ rest := by
          cases gaps <;> simp [CljTidy.spaced]
        rw [hrest]
        exact hq.head_isGap hqcode rest
      have hbehind := hmore.gap hall hhead
      have hclear : p.ClearOf (gap.toList ++
          (CljTidy.spaced ((q :: ps).map Piece.text) gaps).toList) := by
        obtain ⟨c, cs, hcs⟩ := List.exists_cons_of_ne_nil
          (show gap.toList ≠ [] from fun h => hne (by simpa using h))
        intro d hd
        rw [hcs] at hd
        obtain rfl : c = d := by simpa using hd
        exact Piece.absorbs_gap hcode (hall c (by simp [hcs]))
      have hstep := piece hp hcode hclear hbehind
      simpa [CljTidy.spaced] using hstep

end Says

/-! ## Texts -/

/-- The code of a text as pieces, each a token on its own. -/
theorem exists_code {text : String} {tokens : List Token} (h : tokenize text = .ok tokens) :
    ∃ ps : List Piece, (∀ p ∈ ps, p.Whole ∧ p.kind.isCode = true) ∧
      (tokens.filter fun t => t.kind.isCode).map Token.said = ps.map Piece.said := by
  obtain ⟨ps, hwhole, hsaid⟩ := spelled_of_tokenize h
  refine ⟨Piece.code ps, ?_, ?_⟩
  · intro p hp
    obtain ⟨hmem, hcode⟩ := List.mem_filter.mp hp
    exact ⟨hwhole p hmem, hcode⟩
  · have hfilter := congrArg (List.filter fun said => said.1.isCode) hsaid
    rw [List.filter_append, List.filter_map, List.filter_map,
      show List.filter (fun said => said.1.isCode) [(TokenKind.endOfText, none)] = [] from rfl,
      List.append_nil] at hfilter
    exact hfilter

/-- **Tokens are separable.**  The code of a text, written again with any gaps of white space and
    commas between its tokens, is cut into the same code, with nothing but trivia besides. -/
theorem tokenize_spaced {text : String} {tokens : List Token} (h : tokenize text = .ok tokens)
    {gaps : List String}
    (hlength : gaps.length = (tokens.filter fun t => t.kind.isCode).length - 1)
    (hgaps : ∀ gap ∈ gaps, gap ≠ "" ∧ ∀ c ∈ gap.toList, isGap c = true) :
    ∃ again,
      tokenize (spaced ((tokens.filter fun t => t.kind.isCode).map Token.text) gaps) = .ok again ∧
      (again.filter fun t => t.kind.isSaid).map Token.said =
        (tokens.filter fun t => t.kind.isCode).map Token.said := by
  obtain ⟨ps, hwhole, hsaid⟩ := exists_code h
  have htexts : (tokens.filter fun t => t.kind.isCode).map Token.text = ps.map Piece.text := by
    have hvalues := congrArg (List.map fun said => said.2.getD "") hsaid
    rw [List.map_map, List.map_map] at hvalues
    exact hvalues
  have hcount : (tokens.filter fun t => t.kind.isCode).length = ps.length := by
    simpa using congrArg List.length htexts
  rw [htexts, hsaid]
  obtain ⟨hfault, hagain⟩ := Says.spaced hwhole (hcount ▸ hlength) hgaps [] {}
  exact ⟨_, by rw [tokenize, hfault], hagain⟩

set_option maxRecDepth 2000 in
/-- A splice that must not run into its form, a character literal that is a comma, a comment that
    goes; a line break of two characters and a no-break space among the gaps. -/
theorem tokenize_spaced_splice :
    ∃ tokens, tokenize "(~@a \\, ;c\n#_b)" = .ok tokens ∧
      [" ", "\r\n", ",", "\u00a0,", "\n", "\t"].length =
        (tokens.filter fun t => t.kind.isCode).length - 1 ∧
      (∀ gap ∈ [" ", "\r\n", ",", "\u00a0,", "\n", "\t"],
        gap ≠ "" ∧ ∀ c ∈ gap.toList, isGap c = true) ∧
      ∃ again,
        tokenize (spaced ((tokens.filter fun t => t.kind.isCode).map Token.text)
          [" ", "\r\n", ",", "\u00a0,", "\n", "\t"]) = .ok again ∧
        (again.filter fun t => t.kind.isSaid).map Token.said =
          (tokens.filter fun t => t.kind.isCode).map Token.said := by
  have htokens : tokenize "(~@a \\, ;c\n#_b)" =
      .ok [⟨.openList, some "(", ⟨1, 1⟩⟩, ⟨.unquoteSplicing, some "~@", ⟨1, 2⟩⟩,
        ⟨.word, some "a", ⟨1, 4⟩⟩, ⟨.whitespace, some " ", ⟨1, 5⟩⟩,
        ⟨.character, some "\\,", ⟨1, 6⟩⟩, ⟨.whitespace, some " ", ⟨1, 8⟩⟩,
        ⟨.comment, some ";c", ⟨1, 9⟩⟩, ⟨.newline, some "\n", ⟨1, 11⟩⟩,
        ⟨.discard, some "#_", ⟨2, 1⟩⟩, ⟨.word, some "b", ⟨2, 3⟩⟩, ⟨.close, some ")", ⟨2, 4⟩⟩,
        .atEnd ⟨2, 5⟩] := by cbv
  have hall : ([" ", "\r\n", ",", "\u00a0,", "\n", "\t"].all fun gap =>
      gap != "" && gap.toList.all isGap) = true := by cbv
  have hgaps : ∀ gap ∈ [" ", "\r\n", ",", "\u00a0,", "\n", "\t"],
      gap ≠ "" ∧ ∀ c ∈ gap.toList, isGap c = true := by
    intro gap hgap
    simpa using List.all_eq_true.mp hall gap hgap
  refine ⟨_, htokens, ?hlength, hgaps, tokenize_spaced htokens ?hlength hgaps⟩
  case hlength => rfl

end CljTidy
