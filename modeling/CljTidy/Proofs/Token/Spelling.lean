/-
  How tokens of a kind are spelled.

  Brackets and marks have fixed spellings, tags and map namespaces start with a `#`, and a comment
  starts with a semicolon or `#!` and stays on its line (`Piece.Regular`).  Every token of a text
  is spelled like that.  For comments the converse holds too, and tidying keeps a comment a comment.
-/
import CljTidy.Layout.Buffer
import CljTidy.Proofs.Token.Piece

namespace CljTidy

open Character

/-! ## Spellings by kind -/

/-- The text starts like a comment and has no line break. -/
def Comment.IsComment (text : List Char) : Prop :=
  (text.head? = some ';' ∨ text.take 2 = ['#', '!']) ∧ ∀ c ∈ text, isLineBreak c = false

/-- A comment starts in one of two ways. -/
theorem Comment.start_cases {text : List Char}
    (h : text.head? = some ';' ∨ text.take 2 = ['#', '!']) :
    (∃ rest, text = ';' :: rest) ∨ ∃ rest, text = '#' :: '!' :: rest := by
  rcases text with _ | ⟨c, _ | ⟨d, rest⟩⟩
  · rcases h with h | h <;> cases h
  · left
    rcases h with h | h
    · exact ⟨[], by rw [Option.some.inj h]⟩
    · cases h
  · rcases h with h | h
    · exact .inl ⟨d :: rest, by rw [Option.some.inj h]⟩
    · obtain ⟨rfl, rfl⟩ : c = '#' ∧ d = '!' := by simpa using h
      exact .inr ⟨rest, rfl⟩

/-- The spelling is one that tokens of its kind have. -/
def Piece.Regular (p : Piece) : Prop :=
  match p.kind with
  | .newline => p.text = "\n"
  | .comment => Comment.IsComment p.text.toList
  | .openList => p.text = "("
  | .openVector => p.text = "["
  | .openMap => p.text = "\x7b"
  | .openSet => p.text = "#\x7b"
  | .openFn => p.text = "#("
  | .openConditional => p.text = "#?(" ∨ p.text = "#?@("
  | .quote => p.text = "'"
  | .syntaxQuote => p.text = "\x60"
  | .unquote => p.text = "~"
  | .unquoteSplicing => p.text = "~@"
  | .deref => p.text = "@"
  | .metadata => p.text = "^" ∨ p.text = "#^"
  | .varQuote => p.text = "#'"
  | .discard => p.text = "#_"
  | .tag => p.text.toList.head? = some '#'
  | .namespacedMap => p.text.toList.head? = some '#'
  | .endOfText => False
  | _ => True

namespace Lexeme

/-- The token of a lexeme, if there is one, is spelled like others of its kind. -/
def IsRegular (l : Lexeme) : Prop :=
  ∀ kind value, l.outcome = .ok (kind, value) → Piece.Regular ⟨kind, value⟩

/-- What it takes to show it for a token, -/
theorem isRegular_ok {l : Lexeme} {kind : TokenKind} {value : String}
    (h : l.outcome = .ok (kind, value)) (hr : Piece.Regular ⟨kind, value⟩) : l.IsRegular := by
  intro k v hok
  rw [h] at hok
  cases hok
  exact hr

/-- and where there is no token there is nothing to show. -/
theorem isRegular_error {l : Lexeme} {fault : LexicalFault} (h : l.outcome = .error fault) :
    l.IsRegular := by
  intro k v hok
  rw [h] at hok
  cases hok

/-- A line break has one spelling, -/
theorem isRegular_newline (c : Char) (cs : List Char) : (newline (c :: cs)).IsRegular := by
  unfold newline
  split <;> first | exact isRegular_ok rfl rfl | exact isRegular_error rfl

/-- A comment is the rest of its line. -/
theorem isRegular_comment {cs : List Char}
    (h : cs.head? = some ';' ∨ cs.take 2 = ['#', '!']) : (comment cs).IsRegular := by
  refine isRegular_ok rfl ?_
  show Comment.IsComment (String.ofList _).toList
  rw [String.toList_ofList]
  refine ⟨?_, fun c hc => ?_⟩
  · obtain ⟨rest, rfl⟩ | ⟨rest, rfl⟩ := Comment.start_cases h
    · exact .inl rfl
    · exact .inr rfl
  · simpa using List.all_eq_true.mp List.all_takeWhile c hc

/-- and so has every bracket. -/
theorem isRegular_delimiter (c : Char) (cs : List Char) : (delimiter (c :: cs)).IsRegular := by
  unfold delimiter
  split <;> exact isRegular_ok rfl (by first | rfl | trivial)

/-- Of strings and regular expressions nothing is asked, -/
theorem isRegular_quoted (kind : TokenKind) (hk : ∀ text, Piece.Regular ⟨kind, text⟩)
    (front cs : List Char) : (quoted kind front cs).IsRegular := by
  cases cs with
  | nil => exact isRegular_error rfl
  | cons c cs =>
    simp only [quoted]
    split
    · exact isRegular_ok rfl (hk _)
    · exact isRegular_error rfl

/-- nor of characters. -/
theorem isRegular_character (cs : List Char) : (character cs).IsRegular := by
  unfold character
  split
  · exact isRegular_error rfl
  · exact isRegular_error rfl
  · split <;> exact isRegular_ok rfl trivial

/-- A tilde is one mark, and a tilde with an at sign another. -/
theorem isRegular_unquote (cs : List Char) : (unquote cs).IsRegular := by
  unfold unquote
  split
  · exact isRegular_ok rfl rfl
  · exact isRegular_ok rfl rfl
  · exact isRegular_error rfl

/-- The two conditionals have their own spellings. -/
theorem isRegular_conditional (cs : List Char) :
    (conditional ('#' :: '?' :: cs)).IsRegular := by
  unfold conditional
  split
  · rename_i heq
    obtain ⟨rfl, rfl, -⟩ := by simpa using heq
    exact isRegular_ok rfl (.inl rfl)
  · rename_i heq
    obtain ⟨rfl, rfl, -⟩ := by simpa using heq
    exact isRegular_ok rfl (.inr rfl)
  · exact isRegular_error rfl

/-- Behind a hash, by the second character: a tag keeps its hash, a comment its `#!`. -/
theorem isRegular_dispatch (cs : List Char) : (dispatch ('#' :: cs)).IsRegular := by
  unfold dispatch
  split
  case h_6 a rest heq =>
    obtain ⟨rfl, -⟩ := by simpa using heq
    exact isRegular_comment (.inr rfl)
  case h_7 => exact isRegular_quoted .regex (fun _ => trivial) _ _
  case h_8 a rest heq =>
    obtain ⟨rfl, -⟩ := by simpa using heq
    exact isRegular_conditional rest
  case h_9 =>
    simp only [symbolic]
    split
    · exact isRegular_error rfl
    · exact isRegular_ok rfl trivial
  case h_10 a rest heq =>
    obtain ⟨rfl, -⟩ := by simpa using heq
    exact isRegular_ok rfl (by simp [Piece.Regular])
  case h_11 a b rest _ _ _ _ _ _ _ _ _ _ heq =>
    obtain ⟨rfl, -⟩ := by simpa using heq
    split
    · exact isRegular_ok rfl (by simp [Piece.Regular])
    · exact isRegular_error rfl
  case h_12 => exact isRegular_error rfl
  all_goals exact isRegular_ok rfl (by first | rfl | exact .inr rfl)

/-- Of words nothing is asked. -/
theorem isRegular_word (cs : List Char) : (word cs).IsRegular := by
  simp only [word]
  repeat' split
  all_goals first | exact isRegular_ok rfl trivial | exact isRegular_error rfl

/-- A token that was read is spelled like others of its kind. -/
theorem isRegular_read (c : Char) (cs : List Char) : (read c cs).IsRegular := by
  refine reader_induction (fun r => (r (c :: cs)).IsRegular) c
    (fun _ => isRegular_newline c cs) (fun _ => isRegular_ok rfl ?_) (fun _ => isRegular_ok rfl ?_)
    (fun h => isRegular_comment (.inl (by rw [h]; rfl))) (fun _ => isRegular_delimiter c cs)
    (fun _ => isRegular_quoted .string (fun _ => trivial) _ _)
    (fun _ => isRegular_character _) (fun h => h ▸ isRegular_dispatch cs)
    (fun _ => isRegular_unquote _) (fun d kind hmem h => ?_) (isRegular_word _)
  · trivial
  · trivial
  · subst h
    simp only [singles, List.mem_cons, Prod.mk.injEq, List.not_mem_nil, or_false] at hmem
    rcases hmem with ⟨rfl, rfl⟩ | ⟨rfl, rfl⟩ | ⟨rfl, rfl⟩ | ⟨rfl, rfl⟩
    · exact isRegular_ok rfl rfl
    · exact isRegular_ok rfl rfl
    · exact isRegular_ok rfl rfl
    · exact isRegular_ok rfl (.inl rfl)

end Lexeme

/-- Every token on its own is spelled like others of its kind. -/
theorem Piece.Whole.regular {p : Piece} (h : p.Whole) : p.Regular := by
  obtain ⟨c, cs, htext, hread⟩ := h
  have hr := hread [] (Piece.clearOf_nil p)
  refine Lexeme.isRegular_read c (cs ++ []) p.kind p.text ?_
  rw [hr, Lexeme.spelling, ← htext, String.ofList_toList]

/-! ## Comments -/

/-- A text that starts like a comment and stays on its line is a comment. -/
theorem Piece.whole_comment {text : String} (h : Comment.IsComment text.toList) :
    Piece.Whole ⟨.comment, text⟩ := by
  obtain ⟨hstart, hline⟩ := h
  obtain ⟨c, cs, htext, hread⟩ : ∃ c cs, text.toList = c :: cs ∧
      ∀ rest, Lexeme.read c (cs ++ rest) = Lexeme.comment (c :: (cs ++ rest)) := by
    rcases Comment.start_cases hstart with ⟨cs, h⟩ | ⟨cs, h⟩
    · exact ⟨';', cs, h, fun _ => rfl⟩
    · exact ⟨'#', '!' :: cs, h, fun _ => rfl⟩
  rw [htext] at hline
  refine ⟨c, cs, htext, fun rest hrest => ?_⟩
  have hall : ∀ d ∈ c :: cs, (fun d => !isLineBreak d) d = true := by
    intro d hd
    simp [hline d hd]
  have hspan := Lexeme.span_of_all hall hrest
  rw [hread, Lexeme.comment, Lexeme.run, ← List.cons_append, hspan.1, hspan.2]

namespace Comment

/-- Trimming leaves a beginning of the text. -/
theorem trimEnd_append (text : List Char) : ∃ rest, text = trimEnd text ++ rest := by
  refine ⟨(text.reverse.takeWhile isSpace).reverse, ?_⟩
  rw [trimEnd, ← List.reverse_append, List.takeWhile_append_dropWhile, List.reverse_reverse]

/-- Trimming twice is trimming once. -/
theorem trimEnd_trimEnd (text : List Char) : trimEnd (trimEnd text) = trimEnd text := by
  have hdrop : ∀ cs : List Char,
      (cs.dropWhile isSpace).dropWhile isSpace = cs.dropWhile isSpace := by
    intro cs
    induction cs with
    | nil => rfl
    | cons c cs ih =>
      cases hc : isSpace c with
      | true => simpa [hc] using ih
      | false => simp [hc]
  simp only [trimEnd, List.reverse_reverse, hdrop]

/-- A text that starts with something other than white space keeps its start. -/
theorem trimEnd_cons {c : Char} (hc : isSpace c = false) (text : List Char) :
    trimEnd (c :: text) = c :: trimEnd text := by
  simp only [trimEnd, List.reverse_cons]
  rw [List.dropWhile_append]
  split
  · rename_i h
    rw [List.isEmpty_iff.mp h]
    simp [hc]
  · simp

/-- The two ways a comment is written after tidying: two semicolons in front, or `#!`. -/
theorem tidy_start {text : List Char} (h : IsComment text) :
    (∃ rest, doubled (trimEnd text) = ';' :: ';' :: rest) ∨
      ∃ rest, doubled (trimEnd text) = '#' :: '!' :: rest := by
  obtain ⟨cs, rfl⟩ | ⟨cs, rfl⟩ := start_cases h.1
  · left
    rw [trimEnd_cons (by decide)]
    unfold doubled
    split
    · exact ⟨_, rfl⟩
    · exact ⟨_, rfl⟩
    · rename_i hne; exact absurd rfl (hne _)
  · right
    rw [trimEnd_cons (by decide), trimEnd_cons (by decide)]
    exact ⟨_, rfl⟩

/-- Doubling adds semicolons only. -/
theorem mem_doubled {c : Char} {text : List Char} (h : c ∈ doubled text) :
    c ∈ text ∨ c = ';' := by
  unfold doubled at h
  split at h
  · exact .inl h
  · rcases List.mem_cons.mp h with h | h
    · exact .inr h
    · exact .inl h
  · exact .inl h

/-- Tidying keeps a comment a comment. -/
theorem isComment_tidy {text : String} (h : IsComment text.toList) :
    IsComment (tidy text).toList := by
  have hstart := tidy_start h
  obtain ⟨rest, hrest⟩ := trimEnd_append text.toList
  rw [tidy, String.toList_ofList]
  refine ⟨?_, fun c hc => ?_⟩
  · rcases hstart with ⟨r, hr⟩ | ⟨r, hr⟩
    · exact .inl (by rw [hr]; rfl)
    · exact .inr (by rw [hr]; rfl)
  · rcases mem_doubled hc with hc | rfl
    · exact h.2 c (by rw [hrest]; exact List.mem_append_left _ hc)
    · decide

/-- Doubling the semicolon does not bring white space to the end. -/
theorem trimEnd_doubled (text : List Char) :
    trimEnd (doubled (trimEnd text)) = doubled (trimEnd text) := by
  have ht := trimEnd_trimEnd text
  unfold doubled
  split
  · rename_i heq; rw [← heq]; exact ht
  · rename_i rest _ heq
    rw [trimEnd_cons (by decide), ← heq, ht]
  · exact ht

/-- Two semicolons are enough. -/
theorem doubled_doubled (text : List Char) : doubled (doubled text) = doubled text := by
  conv => lhs; arg 1; unfold doubled
  conv => rhs; unfold doubled
  split
  · rfl
  · rfl
  · rename_i h1 h2
    unfold doubled
    split
    · exact absurd rfl (h1 _)
    · exact absurd rfl (h2 _)
    · rfl

/-- Tidying twice is tidying once. -/
theorem tidy_tidy (text : String) : tidy (tidy text) = tidy text := by
  simp only [tidy, String.toList_ofList, trimEnd_doubled, doubled_doubled]

end Comment

end CljTidy
