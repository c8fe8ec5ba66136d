/-
  Tokens spelled out and cut again.

  A piece is what a token says: its kind and its spelling, without its place.  Cutting a text
  depends on what stands behind a token in one way only: a character there may be taken into the
  token (`Piece.absorbs`).  So a token that was read once is read again in front of every text that
  does not start with such a character (`read_again`).

  From there to whole texts: pieces of which each is a token on its own and none is lengthened by
  the next one (`Cuts`) are exactly the tokens of their text (`scan_pieces`), and every token of
  any text is a token on its own (`spelled_of_tokenize`).
-/
import CljTidy.Token.Scan

namespace CljTidy

open Character

/-! ## Pieces -/

/-- What a token says: its kind and its spelling. -/
structure Piece where
  kind : TokenKind
  text : String
  deriving Repr, DecidableEq

/-- What a token says, the end of the text included. -/
def Token.said (token : Token) : TokenKind × Option String := (token.kind, token.value)

namespace Piece

/-- What a token with this piece says. -/
def said (p : Piece) : TokenKind × Option String := (p.kind, some p.text)

/-- The character is taken into the token if it stands right behind it.  A character literal runs
    on only if its first character is a letter or digit. -/
def absorbs (p : Piece) (c : Char) : Bool :=
  match p.kind with
  | .whitespace => isBlank c
  | .comma => c == ','
  | .comment => !isLineBreak c
  | .character => (p.text.toList[1]?.any isAlphanumeric) && isTokenChar c
  | .word => isTokenChar c
  | .symbolic => isTokenChar c
  | .tag => isTokenChar c
  | .namespacedMap => isTokenChar c
  | .unquote => c == '@'
  | _ => false

/-- The text behind the token leaves it as it is. -/
def ClearOf (p : Piece) (rest : List Char) : Prop := ∀ c ∈ rest.head?, p.absorbs c = false

/-- The end of a text lengthens nothing. -/
theorem clearOf_nil (p : Piece) : p.ClearOf [] := by
  intro c hc; simp at hc

/-- The spelling is read as the token, in front of any text that leaves it as it is. -/
def Whole (p : Piece) : Prop :=
  ∃ c cs, p.text.toList = c :: cs ∧
    ∀ rest, p.ClearOf rest → Lexeme.read c (cs ++ rest) = .spelling p.kind (c :: cs) rest

/-- The characters of pieces in a row. -/
def chars (ps : List Piece) : List Char := ps.flatMap fun p => p.text.toList

@[simp] theorem chars_nil : chars [] = [] := rfl

@[simp] theorem chars_cons (p : Piece) (ps : List Piece) :
    chars (p :: ps) = p.text.toList ++ chars ps := rfl

/-- The characters of pieces in a row. -/
@[simp] theorem chars_append (ps qs : List Piece) : chars (ps ++ qs) = chars ps ++ chars qs := by
  simp [chars]

/-- In front of the text `rest`, every piece is a token on its own and is left as it is by what is
    behind it. -/
def Cuts (rest : List Char) : List Piece → Prop
  | [] => True
  | p :: ps => p.Whole ∧ p.ClearOf (chars ps ++ rest) ∧ Cuts rest ps

/-- Pieces in front are left as they are by the text of the others. -/
theorem cuts_append {rest : List Char} {ps qs : List Piece} :
    Cuts rest (ps ++ qs) ↔ Cuts (chars qs ++ rest) ps ∧ Cuts rest qs := by
  induction ps with
  | nil => simp [Cuts]
  | cons p ps ih => simp [Cuts, ih, and_assoc]

end Piece

/-! ## What can stand in tokens -/

namespace Character

/-- No code point lies in both classes. -/
def Ranges.apart (ranges others : Ranges) : Bool :=
  ranges.all fun (low, high) => others.all fun (low', high') => high < low' || high' < low

/-- A character in one class is not in the other. -/
theorem Ranges.not_contains_of_apart (ranges : Ranges) {others : Ranges}
    (h : ranges.apart others = true) {c : Char} (hc : ranges.contains c = true) :
    others.contains c = false := by
  rw [Ranges.contains_iff] at hc
  obtain ⟨r, hr, hlow, hhigh⟩ := hc
  have hno : ¬ others.contains c = true := by
    rw [Ranges.contains_iff]
    rintro ⟨o, ho, holow, hohigh⟩
    have hapart := List.all_eq_true.mp (List.all_eq_true.mp h r hr) o ho
    simp only [Bool.or_eq_true, decide_eq_true_eq] at hapart
    omega
  simpa using hno

/-- The characters that end a token, apart from white space. -/
def stopRanges : Ranges :=
  ['(', ')', '[', ']', '\x7b', '\x7d', ',', '"', ';', '\x00'].map fun c => (c.toNat, c.toNat)

/-- A character of a class that is apart from white space and from what ends a token can stand in
    one. -/
theorem isTokenChar_of_apart {ranges : Ranges} (hspaces : ranges.apart spaceRanges = true)
    (hstops : ranges.apart stopRanges = true) {c : Char} (h : ranges.contains c = true) :
    isTokenChar c = true := by
  have hspace : isSpace c = false := Ranges.not_contains_of_apart ranges hspaces h
  have hstop : stopRanges.contains c = false := Ranges.not_contains_of_apart ranges hstops h
  have hne : ∀ d : Char, stopRanges.contains d = true → c ≠ d := by
    rintro d hd rfl
    rw [hstop] at hd
    cases hd
  simp [isTokenChar, hspace, isDelimiter, hne '(' (by decide), hne ')' (by decide),
    hne '[' (by decide), hne ']' (by decide), hne '\x7b' (by decide), hne '\x7d' (by decide),
    hne ',' (by decide), hne '"' (by decide), hne ';' (by decide), hne '\x00' (by decide)]

/-- Letters stand in tokens, -/
theorem isTokenChar_of_isLetter {c : Char} (h : isLetter c = true) : isTokenChar c = true :=
  isTokenChar_of_apart (by decide +kernel) (by decide +kernel) h

/-- line breaks do not, -/
theorem isTokenChar_of_isLineBreak {c : Char} (h : isLineBreak c = true) :
    isTokenChar c = false := by
  simp only [isLineBreak, Bool.or_eq_true, beq_iff_eq] at h
  rcases h with rfl | rfl <;> decide

/-- and what does is not blank. -/
theorem isBlank_of_isTokenChar {c : Char} (h : isTokenChar c = true) : isBlank c = false := by
  have hspace : isSpace c = false := by
    simp only [isTokenChar, Bool.not_eq_true', Bool.or_eq_false_iff] at h
    exact h.1.1.1.1.1
  simp [isBlank, hspace]

end Character

/-! ## Reading a token again -/

namespace Lexeme

/-- A reader that took a token off a text takes it off its spelling, whatever follows. -/
def ReadsAgain (r : List Char → Lexeme) (c : Char) (cs : List Char) : Prop :=
  ∀ kind value, (r (c :: cs)).outcome = .ok (kind, value) →
    ∃ cs', value.toList = c :: cs' ∧
      ∀ rest, Piece.ClearOf ⟨kind, value⟩ rest →
        r (c :: (cs' ++ rest)) = spelling kind (c :: cs') rest

/-- Characters of a class in front of a text that does not start with one are the longest run. -/
theorem span_of_all {p : Char → Bool} {cs rest : List Char} (hall : ∀ c ∈ cs, p c = true)
    (h : ∀ c ∈ rest.head?, p c = false) :
    (cs ++ rest).takeWhile p = cs ∧ (cs ++ rest).dropWhile p = rest := by
  rw [List.takeWhile_append_of_pos hall, List.dropWhile_append_of_pos hall]
  cases rest with
  | nil => simp
  | cons c rest => simp [h c (by simp)]

/-- A longest run stays the longest one in front of a text that does not lengthen it. -/
theorem span_again {p : Char → Bool} (cs : List Char) {rest : List Char}
    (h : ∀ c ∈ rest.head?, p c = false) :
    (cs.takeWhile p ++ rest).takeWhile p = cs.takeWhile p ∧
      (cs.takeWhile p ++ rest).dropWhile p = rest :=
  span_of_all (List.all_eq_true.mp List.all_takeWhile) h

/-- A longest run, if its class is what goes into the token. -/
theorem readsAgain_run (kind : TokenKind) (p : Char → Bool) {c : Char} (cs : List Char)
    (hc : p c = true) (hp : ∀ text c, Piece.absorbs ⟨kind, text⟩ c = p c) :
    ReadsAgain (run kind p) c cs := by
  intro k v h
  simp only [run, spelling, List.takeWhile_cons, hc, if_true, Except.ok.injEq, Prod.mk.injEq] at h
  obtain ⟨rfl, rfl⟩ := h
  refine ⟨cs.takeWhile p, String.toList_ofList, fun rest hrest => ?_⟩
  have hspan := span_again (p := p) cs fun c hc => (hp _ c).symm.trans (hrest c hc)
  simp only [run, List.takeWhile_cons, List.dropWhile_cons, hc, if_true, hspan.1, hspan.2]

/-- Where nothing was read there is nothing to read again. -/
theorem readsAgain_failed {r : List Char → Lexeme} {c : Char} {cs : List Char}
    (fault : LexicalFault) (h : (r (c :: cs)).outcome = .error fault) : ReadsAgain r c cs := by
  intro k v hok
  rw [h] at hok
  cases hok

/-- A token of fixed length is read again in front of anything. -/
theorem readsAgain_fixed {r : List Char → Lexeme} {c : Char} {cs : List Char}
    {kind : TokenKind} {value : String} (cs' : List Char)
    (h : (r (c :: cs)).outcome = .ok (kind, value)) (hv : value = String.ofList (c :: cs'))
    (hr : ∀ rest, Piece.ClearOf ⟨kind, value⟩ rest →
      r (c :: (cs' ++ rest)) = spelling kind (c :: cs') rest) :
    ReadsAgain r c cs := by
  intro k v hok
  rw [h] at hok
  injection hok with hok
  injection hok with hk hv'
  subst hk hv'
  exact ⟨cs', by rw [hv, String.toList_ofList], hr⟩

/-- A single character, -/
theorem readsAgain_single (kind : TokenKind) (c : Char) (cs : List Char) :
    ReadsAgain (single kind) c cs :=
  readsAgain_fixed [] rfl rfl fun _ _ => rfl

/-- or a bracket. -/
theorem readsAgain_delimiter (c : Char) (cs : List Char) : ReadsAgain delimiter c cs := by
  by_cases h1 : c = '('
  · subst h1; exact readsAgain_fixed [] rfl rfl fun _ _ => rfl
  by_cases h2 : c = '['
  · subst h2; exact readsAgain_fixed [] rfl rfl fun _ _ => rfl
  by_cases h3 : c = '\x7b'
  · subst h3; exact readsAgain_fixed [] rfl rfl fun _ _ => rfl
  have hclose : ∀ cs, delimiter (c :: cs) = single .close (c :: cs) := by
    intro cs
    rw [delimiter]
    all_goals simp [h1, h2, h3]
  intro k v h
  rw [hclose] at h
  obtain ⟨cs', hv, hr⟩ := readsAgain_single .close c cs k v h
  exact ⟨cs', hv, fun rest hrest => by rw [hclose]; exact hr rest hrest⟩

/-! ### Strings and characters -/

/-- The body of a string that was closed is found again in front of anything. -/
theorem stringBody_again (cs rest : List Char) (h : (stringBody cs).2.2 = true) :
    stringBody ((stringBody cs).1 ++ rest) = ((stringBody cs).1, rest, true) := by
  fun_induction stringBody cs with
  | case1 => cases h
  | case2 rest' => simp [stringBody]
  | case3 => cases h
  | case4 c rest' body left closed heq ih =>
    rw [heq] at ih
    simp only [List.cons_append, stringBody, ih h]
  | case5 c rest' hq hb hb' body left closed heq ih =>
    rw [heq] at ih
    have hq' : c ≠ '"' := hq
    have hb'' : c ≠ '\\' := by
      rintro rfl
      cases rest' with
      | nil => exact hb rfl rfl
      | cons d ds => exact hb' d ds rfl rfl
    rw [List.cons_append, stringBody]
    · rw [ih h]
    · exact hq'
    · intro hc; exact absurd hc hb''
    · intro d ds hc; exact absurd hc hb''

/-- A quoted text is read up to its closing quote. -/
theorem readsAgain_quoted {kind : TokenKind} (front : List Char) {r : List Char → Lexeme}
    {c : Char} {cs : List Char} (q : Char) (cs₀ : List Char)
    (hcs : c :: cs = front ++ q :: cs₀)
    (hr : ∀ body, r (front ++ q :: body) = quoted kind front (q :: body)) :
    ReadsAgain r c cs := by
  intro k v h
  rw [hcs, hr] at h
  simp only [quoted] at h
  split at h
  · rename_i hclosed
    simp only [spelling, Except.ok.injEq, Prod.mk.injEq] at h
    obtain ⟨rfl, rfl⟩ := h
    obtain ⟨cs', hcs'⟩ : ∃ cs', front ++ q :: (stringBody cs₀).1 = c :: cs' := by
      cases front with
      | nil => exact ⟨_, by simp only [List.nil_append] at hcs ⊢; rw [(List.cons.inj hcs).1]⟩
      | cons f fs => exact ⟨_, by rw [(List.cons.inj hcs).1, List.cons_append]⟩
    refine ⟨cs', by rw [String.toList_ofList, hcs'], fun rest _ => ?_⟩
    rw [← List.cons_append, ← hcs', List.append_assoc, List.cons_append, hr]
    simp [quoted, stringBody_again cs₀ rest hclosed]
  · cases h

/-- A character literal: the one behind the backslash, and more if that one can stand in a token. -/
theorem readsAgain_character (c : Char) (cs : List Char) : ReadsAgain character c cs := by
  cases cs with
  | nil => exact readsAgain_failed _ rfl
  | cons first cs =>
    intro k v h
    simp only [character] at h
    by_cases hf : isAlphanumeric first = true
    · rw [if_pos hf] at h
      simp only [spelling, Except.ok.injEq, Prod.mk.injEq] at h
      obtain ⟨rfl, rfl⟩ := h
      refine ⟨first :: cs.takeWhile isTokenChar, String.toList_ofList, fun rest hrest => ?_⟩
      have hclear : ∀ c ∈ rest.head?, isTokenChar c = false := by
        intro d hd
        simpa [Piece.absorbs, hf] using hrest d hd
      have hspan := span_again cs hclear
      simp only [List.cons_append, character, if_pos hf, hspan.1, hspan.2]
    · rw [if_neg hf] at h
      simp only [spelling, Except.ok.injEq, Prod.mk.injEq] at h
      obtain ⟨rfl, rfl⟩ := h
      refine ⟨[first], String.toList_ofList, fun rest _ => ?_⟩
      simp only [List.singleton_append, character, if_neg hf]

/-! ### Marks and words -/

/-- A tilde, with or without an at sign behind it. -/
theorem readsAgain_unquote {c : Char} (hc : c = '~') (cs : List Char) :
    ReadsAgain unquote c cs := by
  subst hc
  by_cases hat : ∃ rest, cs = '@' :: rest
  · obtain ⟨rest, rfl⟩ := hat
    exact readsAgain_fixed ['@'] rfl rfl fun _ _ => rfl
  · have hplain : ∀ rest : List Char, (∀ c ∈ rest.head?, (c == '@') = false) →
        unquote ('~' :: rest) = fixed .unquote "~" ['~'] rest := by
      intro rest hrest
      rw [unquote]
      rintro rest' rfl
      cases hrest '@' rfl
    have hcs : ∀ c ∈ cs.head?, (c == '@') = false := by
      cases cs with
      | nil => intro c hc; simp at hc
      | cons d ds =>
        intro c hc
        obtain rfl : d = c := by simpa using hc
        exact beq_false_of_ne fun h => hat ⟨ds, by rw [h]⟩
    exact readsAgain_fixed [] (by rw [hplain cs hcs]; rfl) rfl
      fun rest hrest => hplain rest hrest

/-- Tokens that run on over token characters, behind a fixed beginning. -/
theorem readsAgain_tail {r : List Char → Lexeme} (kind : TokenKind) {c : Char}
    (front tail : List Char) (hkind : ∀ text c, Piece.absorbs ⟨kind, text⟩ c = isTokenChar c)
    (h : ∀ rest, (∀ c ∈ rest.head?, isTokenChar c = false) →
      r (c :: (front ++ (tail.takeWhile isTokenChar ++ rest))) =
        spelling kind (c :: (front ++ tail.takeWhile isTokenChar)) rest)
    (hok : (r (c :: (front ++ tail))).outcome =
      .ok (kind, String.ofList (c :: (front ++ tail.takeWhile isTokenChar)))) :
    ReadsAgain r c (front ++ tail) := by
  refine readsAgain_fixed _ hok rfl fun rest hrest => ?_
  rw [List.append_assoc]
  exact h rest fun d hd => (hkind _ d).symm.trans (hrest d hd)

/-- A reader conditional needs its bracket. -/
theorem readsAgain_conditional {c : Char} (cs : List Char) (hq : ∃ rest, cs = '?' :: rest)
    (r : List Char → Lexeme) (hr : ∀ rest, r (c :: '?' :: rest) = conditional (c :: '?' :: rest)) :
    ReadsAgain r c cs := by
  obtain ⟨rest, rfl⟩ := hq
  by_cases hlist : ∃ rest', rest = '(' :: rest'
  · obtain ⟨rest', rfl⟩ := hlist
    exact readsAgain_fixed ['?', '('] (by rw [hr]; rfl) rfl fun _ _ => by
      simp only [List.cons_append, List.nil_append, hr]; rfl
  by_cases hsplice : ∃ rest', rest = '@' :: '(' :: rest'
  · obtain ⟨rest', rfl⟩ := hsplice
    exact readsAgain_fixed ['?', '@', '('] (by rw [hr]; rfl) rfl fun _ _ => by
      simp only [List.cons_append, List.nil_append, hr]; rfl
  refine readsAgain_failed .conditionalWithoutList ?_
  rw [hr, conditional]
  · rfl
  · rintro a b rest' h
    simp only [List.cons.injEq] at h
    exact hlist ⟨rest', h.2.2⟩
  · rintro a b rest' h
    simp only [List.cons.injEq] at h
    exact hsplice ⟨rest', h.2.2⟩

/-- A comment behind `#!` runs to the end of its line like any other. -/
theorem readsAgain_shebang (rest : List Char) : ReadsAgain dispatch '#' ('!' :: rest) := by
  intro k v h
  obtain ⟨cs', hv, hr⟩ := readsAgain_run .comment (fun c => !isLineBreak c)
    ('!' :: rest) rfl (fun _ _ => rfl) k v h
  obtain ⟨cs'', rfl⟩ : ∃ cs'', cs' = '!' :: cs'' := by
    have hv' : v.toList = '#' :: '!' :: rest.takeWhile fun c => !isLineBreak c := by
      simp only [dispatch, comment, run, spelling, Except.ok.injEq, Prod.mk.injEq] at h
      rw [← h.2, String.toList_ofList]
      rfl
    rw [hv] at hv'
    exact ⟨_, (List.cons.inj hv').2⟩
  exact ⟨'!' :: cs'', hv, hr⟩

/-- A symbolic value keeps its name. -/
theorem readsAgain_symbolic {c : Char} (hc : c = '#') (tail : List Char)
    (r : List Char → Lexeme) (hr : ∀ rest, r (c :: '#' :: rest) = symbolic c '#' rest) :
    ReadsAgain r c ('#' :: tail) := by
  subst hc
  by_cases hnil : tail.takeWhile isTokenChar = []
  · refine readsAgain_failed .missingSymbolicName ?_
    rw [hr]
    simp [symbolic, hnil, failed]
  · have hname : ∀ rest : List Char, (('#' :: '#' :: tail.takeWhile isTokenChar) == ['#', '#'])
        = false := by
      intro _
      simpa using hnil
    refine readsAgain_tail .symbolic ['#'] tail (fun _ _ => rfl)
      (fun rest hrest => ?_) ?_
    · have hspan := span_again tail hrest
      rw [List.singleton_append, hr]
      simp only [symbolic, hspan.1, hspan.2, hname rest, List.singleton_append]
      rfl
    · rw [List.singleton_append, hr]
      simp only [symbolic, hname [], List.singleton_append]
      rfl

/-- What a `#` starts is read again, whichever character stands second. -/
theorem readsAgain_dispatch {c : Char} (hc : c = '#') (cs : List Char) :
    ReadsAgain dispatch c cs := by
  cases cs with
  | nil => exact readsAgain_failed _ rfl
  | cons b rest =>
    -- The second character decides, in the order the reader tries them.
    by_cases h1 : b = '\x7b'
    · subst h1 hc; exact readsAgain_fixed ['\x7b'] rfl rfl fun _ _ => rfl
    by_cases h2 : b = '('
    · subst h2 hc; exact readsAgain_fixed ['('] rfl rfl fun _ _ => rfl
    by_cases h3 : b = '\x27'
    · subst h3 hc; exact readsAgain_fixed ['\x27'] rfl rfl fun _ _ => rfl
    by_cases h4 : b = '_'
    · subst h4 hc; exact readsAgain_fixed ['_'] rfl rfl fun _ _ => rfl
    by_cases h5 : b = '^'
    · subst h5 hc; exact readsAgain_fixed ['^'] rfl rfl fun _ _ => rfl
    by_cases h6 : b = '!'
    · subst h6 hc; exact readsAgain_shebang rest
    by_cases h7 : b = '"'
    · subst h7; exact readsAgain_quoted [c] '"' rest rfl fun _ => rfl
    by_cases h8 : b = '?'
    · subst h8; exact readsAgain_conditional _ ⟨rest, rfl⟩ dispatch fun _ => rfl
    by_cases h9 : b = '#'
    · subst h9; exact readsAgain_symbolic hc rest dispatch fun _ => rfl
    by_cases h10 : b = ':'
    · subst h10
      refine readsAgain_tail .namespacedMap [':'] rest
        (fun _ _ => rfl) (fun rest' hrest => ?_) rfl
      have hspan := span_again rest hrest
      simp only [List.singleton_append, dispatch, hspan.1, hspan.2]
    · -- None of the fixed marks: a letter starts a tag, and anything else is a fault.
      have hother : ∀ rest, dispatch (c :: b :: rest) =
          if isLetter b then
            spelling .tag (c :: (b :: rest).takeWhile isTokenChar)
              ((b :: rest).dropWhile isTokenChar)
          else failed (.unsupportedDispatch b) [] (c :: b :: rest) := by
        intro rest
        rw [dispatch]
        all_goals assumption
      by_cases hl : isLetter b = true
      · have hb := isTokenChar_of_isLetter hl
        refine readsAgain_tail .tag [b] rest
          (fun _ _ => rfl) (fun rest' hrest => ?_) ?_
        · have hspan := span_again rest hrest
          simp only [List.singleton_append, hother, if_pos hl, List.takeWhile_cons,
            List.dropWhile_cons, hb, if_true, hspan.1, hspan.2]
        · simp only [List.singleton_append, hother, if_pos hl, List.takeWhile_cons, hb, if_true]
          rfl
      · exact readsAgain_failed _ (by rw [hother, if_neg hl]; rfl)

/-- A word is read as the same literal again, for that is decided by its characters. -/
theorem readsAgain_word (c : Char) (cs : List Char) : ReadsAgain word c cs := by
  intro k v h
  by_cases hc : isTokenChar c = true
  · -- The tests look at the characters taken alone, and these are the same again.
    have hsame : ∀ rest, (∀ c ∈ rest.head?, isTokenChar c = false) →
        word (c :: (cs.takeWhile isTokenChar ++ rest)) =
          ⟨c :: cs.takeWhile isTokenChar, rest, (word (c :: cs)).outcome⟩ := by
      intro rest hrest
      have hspan := span_again cs hrest
      simp only [word, List.takeWhile_cons, List.dropWhile_cons, hc, if_true, hspan.1, hspan.2]
      repeat' split
      all_goals simp_all [spelling, failed]
    have hv : k = .word ∧ v = String.ofList (c :: cs.takeWhile isTokenChar) := by
      simp only [word, List.takeWhile_cons, hc, if_true, List.isEmpty_cons] at h
      repeat' split at h
      all_goals simp_all [spelling, failed]
    obtain ⟨rfl, rfl⟩ := hv
    refine ⟨cs.takeWhile isTokenChar, String.toList_ofList, fun rest hrest => ?_⟩
    rw [hsame rest hrest, h]
    rfl
  · simp [word, hc, failed] at h

/-- **Reading again.**  A token that was read off some text is read off its own spelling, in front
    of every text that does not run on. -/
theorem read_again {c : Char} {cs : List Char} {kind : TokenKind} {value : String}
    (h : (read c cs).outcome = .ok (kind, value)) : Piece.Whole ⟨kind, value⟩ := by
  by_cases hbreak : isLineBreak c = true
  · -- Whatever the line break was, it is spelled as a line feed.
    have hnl : kind = .newline ∧ value = "\n" := by
      have hread : read c cs = newline (c :: cs) := by simp [read, reader, hbreak]
      rw [hread] at h
      unfold newline at h
      split at h <;> simp_all [fixed]
    obtain ⟨rfl, rfl⟩ := hnl
    exact ⟨'\n', [], rfl, fun rest _ => rfl⟩
  · have hagain : ReadsAgain (reader c) c cs := by
      refine reader_induction (fun r => ReadsAgain r c cs) c (fun h => absurd h hbreak)
        (fun h => readsAgain_run _ _ _ h fun _ _ => rfl)
        (fun h => readsAgain_run _ _ _ (by simp [h]) fun _ _ => rfl)
        (fun h => readsAgain_run _ _ _ (by subst h; rfl) fun _ _ => rfl)
        (fun _ => readsAgain_delimiter _ _)
        (fun h => readsAgain_quoted [] c cs rfl fun _ => rfl)
        (fun _ => readsAgain_character _ _)
        (fun h => readsAgain_dispatch h _) (fun h => readsAgain_unquote h _)
        (fun _ kind _ _ => readsAgain_single kind _ _) (readsAgain_word _ _)
    obtain ⟨cs', hv, hr⟩ := hagain kind value h
    exact ⟨c, cs', hv, hr⟩

end Lexeme

/-! ## Whole texts -/

/-- A token that is read stands in front of those behind it. -/
theorem Scan.from_of_ok {c : Char} {cs : List Char} {kind : TokenKind} {value : String}
    (h : (Lexeme.read c cs).outcome = .ok (kind, value)) (span : List Char) (position : Position) :
    Scan.from span position (c :: cs) =
      let lexeme := Lexeme.read c cs
      let later := Scan.from lexeme.taken (position.after lexeme.taken) lexeme.rest
      { later with tokens := ⟨kind, some value, position⟩ :: later.tokens } := by
  rw [Scan.from]
  split
  · rename_i fault hfault
    rw [h] at hfault
    cases hfault
  · rename_i kind' value' hok
    rw [h] at hok
    obtain ⟨rfl, rfl⟩ := Prod.mk.inj (Except.ok.inj hok)
    rfl

/-- Nothing is read behind what cannot be read. -/
theorem Scan.from_of_error {c : Char} {cs : List Char} {fault : LexicalFault}
    (h : (Lexeme.read c cs).outcome = .error fault) (span : List Char) (position : Position) :
    Scan.from span position (c :: cs) =
      let lexeme := Lexeme.read c cs
      ⟨[], lexeme.taken, lexeme.rest, position.after lexeme.taken,
        some (fault.located position lexeme.taken)⟩ := by
  rw [Scan.from]
  split
  · rename_i fault' hfault
    rw [h] at hfault
    cases hfault
    rfl
  · rename_i kind value hok
    rw [h] at hok
    cases hok

/-- A piece in front of a text that leaves it as it is becomes the first token. -/
theorem scan_piece {p : Piece} (hwhole : p.Whole) {rest : List Char} (hclear : p.ClearOf rest)
    (span : List Char) (position : Position) :
    ∃ span' position',
      (Scan.from span position (p.text.toList ++ rest)).fault =
        (Scan.from span' position' rest).fault ∧
      (Scan.from span position (p.text.toList ++ rest)).tokens.map Token.said =
        p.said :: (Scan.from span' position' rest).tokens.map Token.said := by
  obtain ⟨c, cs, htext, hread⟩ := hwhole
  have hr := hread rest hclear
  have hp : String.ofList (c :: cs) = p.text := by rw [← htext, String.ofList_toList]
  refine ⟨c :: cs, position.after (c :: cs), ?_⟩
  rw [htext, List.cons_append, Scan.from_of_ok (congrArg Lexeme.outcome hr) span position]
  simp only [hr, Lexeme.spelling, List.map_cons, Token.said, Piece.said, hp, and_self]

/-- Pieces in front of a text are its first tokens. -/
theorem scan_append : ∀ (ps : List Piece) {rest : List Char} (span : List Char)
    (position : Position), Piece.Cuts rest ps →
    ∃ span' position',
      (Scan.from span position (Piece.chars ps ++ rest)).fault =
        (Scan.from span' position' rest).fault ∧
      (Scan.from span position (Piece.chars ps ++ rest)).tokens.map Token.said =
        ps.map Piece.said ++ (Scan.from span' position' rest).tokens.map Token.said
  | [], rest, span, position, _ => ⟨span, position, rfl, rfl⟩
  | p :: ps, rest, span, position, ⟨hwhole, hclear, hcuts⟩ => by
      obtain ⟨span₁, position₁, hfault, htokens⟩ := scan_piece hwhole hclear span position
      obtain ⟨span', position', hfault', htokens'⟩ := scan_append ps span₁ position₁ hcuts
      refine ⟨span', position', ?_⟩
      rw [Piece.chars_cons, List.append_assoc, hfault, htokens, hfault', htokens']
      exact ⟨rfl, rfl⟩

/-- **Cutting pieces.**  Pieces that are tokens on their own and leave each other alone are the
    tokens of the text they spell. -/
theorem scan_pieces (ps : List Piece) (span : List Char) (position : Position)
    (h : Piece.Cuts [] ps) :
    (Scan.from span position (Piece.chars ps)).fault = none ∧
      (Scan.from span position (Piece.chars ps)).tokens.map Token.said =
        ps.map Piece.said ++ [(.endOfText, none)] := by
  obtain ⟨span', position', hfault, htokens⟩ := scan_append ps span position h
  rw [List.append_nil] at hfault htokens
  rw [hfault, htokens, Scan.from]
  exact ⟨rfl, rfl⟩

/-- The tokens of a text spelled by pieces. -/
theorem tokenize_pieces {ps : List Piece} (h : Piece.Cuts [] ps) {text : String}
    (htext : text.toList = Piece.chars ps) :
    ∃ tokens, tokenize text = .ok tokens ∧
      tokens.map Token.said = ps.map Piece.said ++ [(.endOfText, none)] := by
  have hscan := scan_pieces ps [] {} h
  refine ⟨(Scan.from [] {} (Piece.chars ps)).tokens, ?_, hscan.2⟩
  simp only [tokenize, htext, hscan.1]

/-- The tokens are followed by the end of the text, and each is a token on its own. -/
def Spelled (tokens : List Token) : Prop :=
  ∃ ps : List Piece, (∀ p ∈ ps, p.Whole) ∧
    tokens.map Token.said = ps.map Piece.said ++ [(.endOfText, none)]

/-- Induction over the scan: each token is a token on its own, and the end of the text stands
    last. -/
theorem scan_spelled (span : List Char) (position : Position) (cs : List Char)
    (h : (Scan.from span position cs).fault = none) :
    Spelled (Scan.from span position cs).tokens := by
  fun_induction Scan.from span position cs with
  | case1 span position => exact ⟨[], by simp, rfl⟩
  | case2 span position c cs fault hfault => cases h
  | case3 span position c cs kind value hok lexeme later ih =>
    obtain ⟨ps, hwhole, hsaid⟩ := ih h
    refine ⟨⟨kind, value⟩ :: ps, ?_, congrArg ((kind, some value) :: ·) hsaid⟩
    intro p hp
    rcases List.mem_cons.mp hp with rfl | hp
    · exact Lexeme.read_again hok
    · exact hwhole p hp

/-- Every token of a text is a token on its own. -/
theorem spelled_of_tokenize {text : String} {tokens : List Token}
    (h : tokenize text = .ok tokens) : Spelled tokens := by
  simp only [tokenize] at h
  split at h
  · cases h
  · rename_i hfault
    injection h with h
    subst h
    exact scan_spelled _ _ _ hfault

end CljTidy
