/-
  Where tokens stand.

  Whatever reader took a token, the characters it took spell the token, save that a line break may
  be written in three ways, and the character behind them would not have gone into the token
  (`exact_read`).  So a text is the spans of its tokens in a row (`exists_spans`): the offset of a
  token is the length of the spans in front of it, and its place is told by the characters in front
  alone, lines by the line feeds among them and columns by what follows the last one
  (`tokenize_offsets`).  Written with the spellings of its tokens, a text is cut into the same
  tokens again (`cuts_of_tokenize`).
-/
import CljTidy.Proofs.Token.Piece
import Mathlib.Data.List.Basic

namespace CljTidy

open Character

/-! ## Places -/

namespace Position

/-- The place behind the characters in front: one line more for each line feed, and one column more
    for each character behind the last of them. -/
def behind (front : List Char) : Position :=
  ⟨1 + front.count '\n', 1 + (front.reverse.takeWhile (· ≠ '\n')).length⟩

/-- One character more. -/
theorem behind_concat (front : List Char) (c : Char) :
    behind (front ++ [c]) = (behind front).step c := by
  unfold behind step
  by_cases hc : c = '\n'
  · simp [hc, Nat.add_assoc]
  · simp [hc, Nat.add_assoc]

/-- Moving on from behind a text leads behind both. -/
theorem after_behind (front text : List Char) :
    (behind front).after text = behind (front ++ text) := by
  -- The characters go over to the front one by one: a column looks back to the last line feed.
  induction text generalizing front with
  | nil => rw [List.append_nil, after_nil]
  | cons c text ih => rw [after_cons, ← behind_concat, ih, List.append_assoc, List.singleton_append]

/-- Moving over a text character by character leads behind it. -/
theorem after_eq_behind (text : List Char) : Position.after {} text = behind text :=
  after_behind [] text

end Position

/-! ## The span of a token -/

/-- The characters are ones that a token of this kind and spelling is read from: a line break is
    spelled as a line feed however it is written, and every other token as it is written. -/
def TokenKind.Covers (kind : TokenKind) (value : String) (span : List Char) : Prop :=
  match kind with
  | .newline => value = "\n" ∧ (span = ['\r', '\n'] ∨ span = ['\r'] ∨ span = ['\n'])
  | .endOfText => False
  | _ => value.toList = span

namespace Lexeme

/-- The token of a lexeme, if there is one, covers the characters taken, and the ones left would not
    have gone into it. -/
def Exact (l : Lexeme) : Prop :=
  ∀ kind value, l.outcome = .ok (kind, value) →
    kind.Covers value l.taken ∧ Piece.ClearOf ⟨kind, value⟩ l.rest

/-- What it takes to show it for a token, -/
theorem exact_ok {l : Lexeme} {kind : TokenKind} {value : String}
    (h : l.outcome = .ok (kind, value)) (hcovers : kind.Covers value l.taken)
    (hclear : Piece.ClearOf ⟨kind, value⟩ l.rest) : l.Exact := by
  intro k v hok
  rw [h] at hok
  cases hok
  exact ⟨hcovers, hclear⟩

/-- and where there is no token there is nothing to show. -/
theorem exact_failed (fault : LexicalFault) (taken rest : List Char) :
    (failed fault taken rest).Exact := by
  intro k v hok
  cases hok

/-- Nothing goes into a token of fixed length. -/
theorem exact_fixed {l : Lexeme} {kind : TokenKind} {value : String}
    (h : l.outcome = .ok (kind, value)) (hcovers : kind.Covers value l.taken)
    (hfixed : ∀ c, Piece.absorbs ⟨kind, value⟩ c = false) : l.Exact :=
  exact_ok h hcovers fun c _ => hfixed c

/-- A longest run ends in front of a character that is not of the class. -/
theorem stops_dropWhile (p : Char → Bool) (cs : List Char) :
    ∀ c ∈ (cs.dropWhile p).head?, p c = false := by
  intro c hc
  have hstop := List.head?_dropWhile_not p cs
  rw [show (cs.dropWhile p).head? = some c from hc] at hstop
  exact hstop

/-- A token that runs on over a class, behind a fixed beginning. -/
theorem exact_tail {kind : TokenKind} {p : Char → Bool} (front cs : List Char)
    (hcovers : ∀ span, kind.Covers (String.ofList span) span)
    (hp : ∀ text c, Piece.absorbs ⟨kind, text⟩ c = p c) :
    (spelling kind (front ++ cs.takeWhile p) (cs.dropWhile p)).Exact :=
  exact_ok rfl (hcovers _) fun c hc => (hp _ c).trans (stops_dropWhile p cs c hc)

/-- A longest run covers itself. -/
theorem exact_run (kind : TokenKind) (p : Char → Bool) (cs : List Char)
    (hcovers : ∀ span, kind.Covers (String.ofList span) span)
    (hp : ∀ text c, Piece.absorbs ⟨kind, text⟩ c = p c) : (run kind p cs).Exact :=
  exact_tail [] cs hcovers hp

/-- A line break covers one character or two; a line feed behind a carriage return is taken with
    it. -/
theorem exact_newline {c : Char} (hc : isLineBreak c = true) (cs : List Char) :
    (newline (c :: cs)).Exact := by
  unfold newline
  split
  · exact exact_fixed rfl ⟨rfl, .inl rfl⟩ fun _ => rfl
  · rename_i d rest _ heq
    obtain ⟨rfl, rfl⟩ := List.cons.inj heq
    have hspan : [c] = ['\r'] ∨ [c] = ['\n'] := by
      rcases (by simpa [isLineBreak] using hc : c = '\n' ∨ c = '\r') with rfl | rfl
      · exact .inr rfl
      · exact .inl rfl
    exact exact_fixed rfl ⟨rfl, .inr hspan⟩ fun _ => rfl
  · exact exact_failed _ _ _

/-- A single character covers itself, -/
theorem exact_single {kind : TokenKind} (c : Char) (cs : List Char)
    (hcovers : ∀ span, kind.Covers (String.ofList span) span)
    (hfixed : ∀ text c, Piece.absorbs ⟨kind, text⟩ c = false) : (single kind (c :: cs)).Exact :=
  exact_fixed rfl (hcovers [c]) (hfixed _)

/-- and so does a bracket. -/
theorem exact_delimiter (c : Char) (cs : List Char) : (delimiter (c :: cs)).Exact := by
  unfold delimiter
  split
  · exact exact_fixed rfl rfl fun _ => rfl
  · exact exact_fixed rfl rfl fun _ => rfl
  · exact exact_fixed rfl rfl fun _ => rfl
  · exact exact_single c cs (fun _ => String.toList_ofList) fun _ _ => rfl

/-- A quoted text ends with its quote. -/
theorem exact_quoted {kind : TokenKind} (front cs : List Char)
    (hcovers : ∀ span, kind.Covers (String.ofList span) span)
    (hfixed : ∀ text c, Piece.absorbs ⟨kind, text⟩ c = false) : (quoted kind front cs).Exact := by
  cases cs with
  | nil => exact exact_failed _ _ _
  | cons c cs =>
    simp only [quoted]
    split
    · exact exact_fixed rfl (hcovers _) (hfixed _)
    · exact exact_failed _ _ _

/-- A character literal runs on over the characters of its name. -/
theorem exact_character (cs : List Char) : (character cs).Exact := by
  unfold character
  split
  · exact exact_failed _ _ _
  · exact exact_failed _ _ _
  · rename_i c first cs
    split
    · refine exact_ok rfl String.toList_ofList fun d hd => ?_
      have hstop := stops_dropWhile isTokenChar cs d hd
      simp [Piece.absorbs, hstop]
    · -- Behind a sign the literal has ended, whatever follows.
      rename_i hfirst
      refine exact_fixed rfl String.toList_ofList fun d => ?_
      simp [Piece.absorbs, hfirst]

/-- A tilde takes an at sign if there is one. -/
theorem exact_unquote (cs : List Char) : (unquote ('~' :: cs)).Exact := by
  unfold unquote
  split
  · rename_i c rest heq
    obtain ⟨rfl, -⟩ := List.cons.inj heq
    exact exact_fixed rfl rfl fun _ => rfl
  · rename_i c rest hat heq
    obtain ⟨rfl, rfl⟩ := List.cons.inj heq
    refine exact_ok rfl rfl fun d hd => beq_false_of_ne fun hd' => ?_
    -- An `@` behind it would have made it the other token.
    subst hd'
    cases cs with
    | nil => cases hd
    | cons e es =>
      obtain rfl : e = '@' := by simpa [fixed] using hd
      exact hat es rfl
  · exact exact_failed _ _ _

/-- A reader conditional is spelled with its bracket. -/
theorem exact_conditional (cs : List Char) : (conditional cs).Exact := by
  unfold conditional
  split
  · exact exact_fixed rfl String.toList_ofList fun _ => rfl
  · exact exact_fixed rfl String.toList_ofList fun _ => rfl
  · exact exact_failed _ _ _

/-- A symbolic value is spelled with its name. -/
theorem exact_symbolic (a b : Char) (cs : List Char) : (symbolic a b cs).Exact := by
  simp only [symbolic]
  split
  · exact exact_failed _ _ _
  · exact exact_tail [a, b] cs (fun _ => String.toList_ofList) fun _ _ => rfl

/-- Behind a hash the second character picks the reader, and each is exact. -/
theorem exact_dispatch (cs : List Char) : (dispatch ('#' :: cs)).Exact := by
  unfold dispatch
  split
  case h_6 => exact exact_run _ _ _ (fun _ => String.toList_ofList) fun _ _ => rfl
  case h_7 => exact exact_quoted _ _ (fun _ => String.toList_ofList) fun _ _ => rfl
  case h_8 => exact exact_conditional _
  case h_9 => exact exact_symbolic _ _ _
  case h_10 => exact exact_tail [_, ':'] _ (fun _ => String.toList_ofList) fun _ _ => rfl
  case h_11 =>
    split
    · exact exact_tail [_] _ (fun _ => String.toList_ofList) fun _ _ => rfl
    · exact exact_failed _ _ _
  case h_12 => exact exact_failed _ _ _
  all_goals
    rename_i heq
    obtain ⟨rfl, -⟩ := List.cons.inj heq
    exact exact_fixed rfl rfl fun _ => rfl

/-- A word runs on over all its token characters. -/
theorem exact_word (cs : List Char) : (word cs).Exact := by
  simp only [word]
  repeat' split
  · exact exact_failed _ _ _
  · exact exact_failed _ _ _
  · exact exact_failed _ _ _
  · exact exact_tail [] cs (fun _ => String.toList_ofList) fun _ _ => rfl

/-- **One token.**  A token that was read covers what was taken, and stops where it must. -/
theorem exact_read (c : Char) (cs : List Char) : (read c cs).Exact := by
  refine reader_induction (fun r => (r (c :: cs)).Exact) c (fun h => exact_newline h cs)
    (fun _ => ?_) (fun _ => ?_) (fun _ => ?_) (fun _ => exact_delimiter c cs)
    (fun _ => exact_quoted _ _ (fun _ => String.toList_ofList) fun _ _ => rfl)
    (fun _ => exact_character _) (fun h => h ▸ exact_dispatch cs) (fun h => h ▸ exact_unquote cs)
    (fun d kind hmem _ => ?_) (exact_word _)
  · exact exact_run _ _ _ (fun _ => String.toList_ofList) fun _ _ => rfl
  · exact exact_run _ _ _ (fun _ => String.toList_ofList) fun _ _ => rfl
  · exact exact_run _ _ _ (fun _ => String.toList_ofList) fun _ _ => rfl
  · simp only [singles, List.mem_cons, Prod.mk.injEq, List.not_mem_nil, or_false] at hmem
    rcases hmem with ⟨-, rfl⟩ | ⟨-, rfl⟩ | ⟨-, rfl⟩ | ⟨-, rfl⟩ <;>
      exact exact_single c cs (fun _ => String.toList_ofList) fun _ _ => rfl

end Lexeme

/-! ## The spans of a text -/

/-- The tokens stand one behind the other from the place on, each over its span, and the end of the
    text behind the last one. -/
def Token.StandOver (position : Position) : List (List Char) → List Token → Prop
  | [], tokens => tokens = [.atEnd position]
  | span :: spans, tokens =>
      ∃ kind value later, tokens = ⟨kind, some value, position⟩ :: later ∧ span ≠ [] ∧
        kind.Covers value span ∧ StandOver (position.after span) spans later

/-- The tokens of a text stand over spans that make up the text. -/
theorem exists_spans (span : List Char) (position : Position) (cs : List Char)
    (h : (Scan.from span position cs).fault = none) :
    ∃ spans : List (List Char), spans.flatten = cs ∧
      Token.StandOver position spans (Scan.from span position cs).tokens := by
  fun_induction Scan.from span position cs with
  | case1 span position => exact ⟨[], rfl, rfl⟩
  | case2 span position c cs fault hfault => cases h
  | case3 span position c cs kind value hok lexeme later ih =>
    obtain ⟨spans, hflatten, hstand⟩ := ih h
    refine ⟨lexeme.taken :: spans, ?_, kind, value, later.tokens, rfl, ?_, ?_, hstand⟩
    · rw [List.flatten_cons, hflatten]
      exact Lexeme.whole_read c cs
    · exact Lexeme.progress_read c cs ⟨_, hok⟩
    · exact (Lexeme.exact_read c cs kind value hok).1

/-- Each token is found at the index of its span, at the place behind all spans in front. -/
theorem Token.StandOver.getElem? {spans : List (List Char)} {position : Position}
    {tokens : List Token} (h : StandOver position spans tokens) :
    tokens.length = spans.length + 1 ∧
      tokens[spans.length]? = some (.atEnd (position.after spans.flatten)) ∧
      ∀ (i : Nat) (span : List Char), spans[i]? = some span → span ≠ [] ∧
        ∃ (kind : TokenKind) (value : String),
          tokens[i]? = some ⟨kind, some value, position.after (spans.take i).flatten⟩ ∧
            kind.Covers value span := by
  induction spans generalizing position tokens with
  | nil =>
    obtain rfl : tokens = [.atEnd position] := h
    exact ⟨rfl, rfl, fun i span hi => nomatch hi⟩
  | cons first spans ih =>
    obtain ⟨kind, value, later, rfl, hne, hcovers, hlater⟩ := h
    obtain ⟨hlength, hend, hspans⟩ := ih hlater
    refine ⟨by simp [hlength], ?_, ?_⟩
    · rw [List.flatten_cons, Position.after_append]
      exact hend
    · intro i span hi
      cases i with
      | zero =>
        obtain rfl : first = span := by simpa using hi
        exact ⟨hne, kind, value, rfl, hcovers⟩
      | succ i =>
        rw [List.take_succ_cons, List.flatten_cons, Position.after_append]
        exact hspans i span hi

/-! ## Offsets -/

/-- A text that is cut into tokens is scanned without a fault. -/
theorem scan_of_tokenize {text : String} {tokens : List Token} (h : tokenize text = .ok tokens) :
    (Scan.from [] {} text.toList).fault = none ∧ (Scan.from [] {} text.toList).tokens = tokens := by
  simp only [tokenize] at h
  split at h
  · cases h
  · rename_i hfault
    exact ⟨hfault, Except.ok.inj h⟩

/-- A part of a row of spans begins where those in front end, and is as long as its span. -/
theorem extract_flatten {spans : List (List Char)} {i : Nat} {span : List Char}
    (h : spans[i]? = some span) :
    (spans.take (i + 1)).flatten.length = (spans.take i).flatten.length + span.length ∧
      spans.flatten.take (spans.take i).flatten.length = (spans.take i).flatten ∧
      spans.flatten.extract (spans.take i).flatten.length (spans.take (i + 1)).flatten.length =
        span := by
  have hnext : (spans.take (i + 1)).flatten = (spans.take i).flatten ++ span := by
    rw [List.take_add_one, h, List.flatten_append]
    simp
  have hwhole : spans.flatten =
      (spans.take i).flatten ++ (span ++ (spans.drop (i + 1)).flatten) := by
    rw [← List.append_assoc, ← hnext, ← List.flatten_append, List.take_append_drop]
  refine ⟨by rw [hnext, List.length_append], ?_, ?_⟩
  · rw [hwhole, List.take_left]
  · rw [hnext, List.length_append, List.extract_eq_take_drop, hwhole, List.drop_left,
      Nat.add_sub_cancel_left, List.take_left]

/-- **Tokens stand where they say.**  A text that is cut into tokens is cut at growing offsets, from
    its start to its end.  Each token but the last covers the characters between two of them, the
    last one marks the end, and each is placed by the characters in front of it. -/
theorem tokenize_offsets {text : String} {tokens : List Token} (h : tokenize text = .ok tokens) :
    ∃ (k : Nat) (offset : Nat → Nat), offset 0 = 0 ∧ offset k = text.length ∧
      (∀ i < k, offset i < offset (i + 1)) ∧ tokens.length = k + 1 ∧
      (∀ i < k, ∃ kind value,
        tokens[i]? = some ⟨kind, some value, .behind (text.toList.take (offset i))⟩ ∧
        kind.Covers value (text.toList.extract (offset i) (offset (i + 1)))) ∧
      tokens[k]? = some (.atEnd (.behind text.toList)) := by
  obtain ⟨hfault, rfl⟩ := scan_of_tokenize h
  obtain ⟨spans, hflatten, hstand⟩ := exists_spans [] {} text.toList hfault
  obtain ⟨hlength, hend, hspans⟩ := hstand.getElem?
  have hspan : ∀ i < spans.length, ∃ span, spans[i]? = some span :=
    fun i hi => ⟨_, List.getElem?_eq_getElem hi⟩
  -- A token starts where the spans in front of it end.
  refine ⟨spans.length, fun i => (spans.take i).flatten.length, rfl, ?_, ?_, hlength, ?_, ?_⟩
  · show (spans.take spans.length).flatten.length = text.length
    rw [List.take_length, hflatten, String.length_toList]
  · intro i hi
    obtain ⟨span, hget⟩ := hspan i hi
    -- No span is empty.
    have hgrows := (extract_flatten hget).1
    have hpos := List.length_pos_iff.mpr (hspans i span hget).1
    show (spans.take i).flatten.length < (spans.take (i + 1)).flatten.length
    omega
  · intro i hi
    obtain ⟨span, hget⟩ := hspan i hi
    obtain ⟨-, hfront, hextract⟩ := extract_flatten hget
    obtain ⟨-, kind, value, htoken, hcovers⟩ := hspans i span hget
    refine ⟨kind, value, ?_, ?_⟩
    · rw [htoken, ← hflatten, hfront, Position.after_eq_behind]
    · rw [← hflatten, hextract]
      exact hcovers
  · rw [hend, hflatten, Position.after_eq_behind]

/-- A line break of two characters, one inside a string, and a comment behind a `#`. -/
theorem tokenize_offsets_lines :
    ∃ tokens, tokenize "a\r\n\"b\nc\" #!d" = .ok tokens ∧
      ∃ (k : Nat) (offset : Nat → Nat), offset 0 = 0 ∧ offset k = "a\r\n\"b\nc\" #!d".length ∧
        (∀ i < k, offset i < offset (i + 1)) ∧ tokens.length = k + 1 ∧
        (∀ i < k, ∃ kind value,
          tokens[i]? =
            some ⟨kind, some value, .behind ("a\r\n\"b\nc\" #!d".toList.take (offset i))⟩ ∧
          kind.Covers value ("a\r\n\"b\nc\" #!d".toList.extract (offset i) (offset (i + 1)))) ∧
        tokens[k]? = some (.atEnd (.behind "a\r\n\"b\nc\" #!d".toList)) := by
  have htokens : tokenize "a\r\n\"b\nc\" #!d" =
      .ok [⟨.word, some "a", ⟨1, 1⟩⟩, ⟨.newline, some "\n", ⟨1, 2⟩⟩,
        ⟨.string, some "\"b\nc\"", ⟨2, 1⟩⟩, ⟨.whitespace, some " ", ⟨3, 3⟩⟩,
        ⟨.comment, some "#!d", ⟨3, 4⟩⟩, .atEnd ⟨3, 7⟩] := by cbv
  exact ⟨_, htokens, tokenize_offsets htokens⟩

/-! ## Cutting again -/

/-- A line feed goes into no token. -/
theorem Piece.absorbs_lineFeed (p : Piece) : p.absorbs '\n' = false := by
  have hblank : isBlank '\n' = false := by decide
  have htoken : isTokenChar '\n' = false := by decide
  have hbreak : isLineBreak '\n' = true := by decide
  obtain ⟨kind, text⟩ := p
  cases kind <;> simp [Piece.absorbs, hblank, htoken, hbreak]

/-- The spelling of a token begins as the characters it covers do, for whatever stands in front. -/
theorem TokenKind.Covers.clearOf {kind : TokenKind} {value : String} {span : List Char}
    (hcovers : kind.Covers value span) (hne : span ≠ []) (rest rest' : List Char) {p : Piece}
    (hclear : p.ClearOf (span ++ rest)) : p.ClearOf (value.toList ++ rest') := by
  obtain ⟨c, cs, rfl⟩ := List.exists_cons_of_ne_nil hne
  have hc : p.absorbs c = false := hclear c rfl
  have hsame : value.toList = c :: cs → p.ClearOf (value.toList ++ rest') := by
    rintro hvalue d hd
    rw [hvalue] at hd
    obtain rfl : c = d := by simpa using hd
    exact hc
  cases kind with
  | newline =>
    -- A carriage return comes out as a line feed, which nothing takes in.
    obtain ⟨rfl, -⟩ := hcovers
    rintro d hd
    obtain rfl : '\n' = d := by simpa using hd
    exact p.absorbs_lineFeed
  | endOfText => exact hcovers.elim
  | _ => exact hsame hcovers

/-- Induction over the scan: each piece keeps apart from the next, as the characters that the next
    one covers begin like its spelling. -/
theorem exists_cuts (span : List Char) (position : Position) (cs : List Char)
    (h : (Scan.from span position cs).fault = none) :
    ∃ ps : List Piece,
      (Scan.from span position cs).tokens.map Token.said =
        ps.map Piece.said ++ [(.endOfText, none)] ∧
      Piece.Cuts [] ps ∧ ∀ p : Piece, p.ClearOf cs → p.ClearOf (Piece.chars ps) := by
  fun_induction Scan.from span position cs with
  | case1 span position => exact ⟨[], rfl, trivial, fun _ h => h⟩
  | case2 span position c cs fault hfault => cases h
  | case3 span position c cs kind value hok lexeme later ih =>
    obtain ⟨ps, hsaid, hcuts, hclear⟩ := ih h
    obtain ⟨hcovers, hstops⟩ := Lexeme.exact_read c cs kind value hok
    refine ⟨⟨kind, value⟩ :: ps, congrArg ((kind, some value) :: ·) hsaid,
      ⟨Lexeme.read_again hok, ?_, hcuts⟩, fun p hp => ?_⟩
    · rw [List.append_nil]
      exact hclear _ hstops
    · have hwhole : c :: cs = lexeme.taken ++ lexeme.rest := (Lexeme.whole_read c cs).symm
      rw [hwhole] at hp
      exact hcovers.clearOf (Lexeme.progress_read c cs ⟨_, hok⟩) _ _ hp

/-- **Tokens keep apart.**  Written with their spellings, the tokens of a text are its tokens
    again. -/
theorem cuts_of_tokenize {text : String} {tokens : List Token} (h : tokenize text = .ok tokens) :
    ∃ ps : List Piece, tokens.map Token.said = ps.map Piece.said ++ [(.endOfText, none)] ∧
      Piece.Cuts [] ps := by
  obtain ⟨hfault, rfl⟩ := scan_of_tokenize h
  obtain ⟨ps, hsaid, hcuts, -⟩ := exists_cuts [] {} text.toList hfault
  exact ⟨ps, hsaid, hcuts⟩

end CljTidy
