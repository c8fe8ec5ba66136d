/-
  No reader loses a character.

  For every reader the characters taken and the characters left make up the text it was given, and
  a token that was read off a non-empty text has at least one character.  Together they say that
  cutting a text into tokens ends.
-/
import CljTidy.Token.Lexeme

namespace CljTidy.Lexeme

open Character

/-! ## What is taken and what is left make up the text -/

/-- The characters taken and left, put together again. -/
def whole (l : Lexeme) : List Char := l.taken ++ l.rest

@[simp] theorem whole_spelling (kind : TokenKind) (taken rest : List Char) :
    (spelling kind taken rest).whole = taken ++ rest := rfl

@[simp] theorem whole_fixed (kind : TokenKind) (value : String) (taken rest : List Char) :
    (fixed kind value taken rest).whole = taken ++ rest := rfl

@[simp] theorem whole_failed (fault : LexicalFault) (taken rest : List Char) :
    (failed fault taken rest).whole = taken ++ rest := rfl

/-- A run takes the characters of its class, -/
@[simp] theorem whole_run (kind : TokenKind) (p : Char → Bool) (cs : List Char) :
    (run kind p cs).whole = cs := by
  simp [run, List.takeWhile_append_dropWhile]

/-- a single character is taken as it is, -/
@[simp] theorem whole_single (kind : TokenKind) (cs : List Char) :
    (single kind cs).whole = cs := by
  cases cs <;> simp [single]

/-- a line break as one or two characters, -/
@[simp] theorem whole_newline (cs : List Char) : (newline cs).whole = cs := by
  unfold newline; split <;> simp

/-- a bracket as one. -/
@[simp] theorem whole_delimiter (cs : List Char) : (delimiter cs).whole = cs := by
  unfold delimiter; split <;> simp

/-- The body of a string and what follows it make up the text behind the quote. -/
theorem stringBody_append (cs : List Char) :
    (stringBody cs).1 ++ (stringBody cs).2.1 = cs := by
  fun_induction stringBody cs <;> simp_all

/-- A quoted text takes what stands in front of its body, the body, and the quote behind it. -/
@[simp] theorem whole_quoted (kind : TokenKind) (front cs : List Char) :
    (quoted kind front cs).whole = front ++ cs := by
  cases cs with
  | nil => simp [quoted]
  | cons c cs =>
    have h := stringBody_append cs
    simp only [quoted]
    split <;> simp [h]

/-- A character takes its backslash, one character whatever it is, and the rest of its name. -/
@[simp] theorem whole_character (cs : List Char) : (character cs).whole = cs := by
  unfold character
  split
  · simp
  · simp
  · split <;> simp [List.takeWhile_append_dropWhile]

/-- The marks of two or three characters take these. -/
@[simp] theorem whole_unquote (cs : List Char) : (unquote cs).whole = cs := by
  unfold unquote; split <;> simp

@[simp] theorem whole_conditional (cs : List Char) : (conditional cs).whole = cs := by
  unfold conditional; split <;> simp

/-- A symbolic value takes its two marks and a name. -/
@[simp] theorem whole_symbolic (a b : Char) (cs : List Char) :
    (symbolic a b cs).whole = a :: b :: cs := by
  simp only [symbolic]; split <;> simp [List.takeWhile_append_dropWhile]

/-- Behind a hash the second character says which reader goes on. -/
@[simp] theorem whole_dispatch (cs : List Char) : (dispatch cs).whole = cs := by
  unfold dispatch
  split
  case h_11 => split <;> simp [List.takeWhile_append_dropWhile]
  all_goals simp [comment, List.takeWhile_append_dropWhile]

/-- A word takes all its token characters, also when it is refused. -/
@[simp] theorem whole_word (cs : List Char) : (word cs).whole = cs := by
  simp only [word]
  repeat' split
  all_goals simp [List.takeWhile_append_dropWhile]

/-- The characters that are a mark on their own. -/
def singles : List (Char × TokenKind) :=
  [('\x27', .quote), ('\x60', .syntaxQuote), ('@', .deref), ('^', .metadata)]

/-- What holds of every reader, each under the test that picks it, holds of the reader picked. -/
theorem reader_induction (P : (List Char → Lexeme) → Prop) (c : Char)
    (hnewline : isLineBreak c = true → P newline)
    (hblanks : isBlank c = true → P blanks)
    (hcommas : c = ',' → P commas)
    (hcomment : c = ';' → P comment)
    (hdelimiter : isDelimiter c = true → P delimiter)
    (hstring : c = '"' → P string)
    (hcharacter : c = '\\' → P character)
    (hdispatch : c = '#' → P dispatch)
    (hunquote : c = '~' → P unquote)
    (hsingle : ∀ d kind, (d, kind) ∈ singles → c = d → P (single kind))
    (hword : P word) : P (reader c) :=
  iteInduction hnewline fun _ =>
  iteInduction hblanks fun _ =>
  iteInduction hcommas fun _ =>
  iteInduction hcomment fun _ =>
  iteInduction hdelimiter fun _ =>
  iteInduction hstring fun _ =>
  iteInduction hcharacter fun _ =>
  iteInduction hdispatch fun _ =>
  iteInduction hunquote fun _ =>
  iteInduction (hsingle _ _ (by simp [singles])) fun _ =>
  iteInduction (hsingle _ _ (by simp [singles])) fun _ =>
  iteInduction (hsingle _ _ (by simp [singles])) fun _ =>
  iteInduction (hsingle _ _ (by simp [singles])) fun _ => hword

/-- Reading a token takes its characters from the front and leaves the others as they are. -/
theorem whole_read (c : Char) (cs : List Char) : (read c cs).whole = c :: cs := by
  refine reader_induction (fun r => (r (c :: cs)).whole = c :: cs) c
    ?_ ?_ ?_ ?_ ?_ ?_ ?_ ?_ ?_ ?_ ?_ <;> intros <;> simp [blanks, commas, comment, string]

/-! ## A token has a character -/

/-- The token was read, and it has at least one character. -/
def Progress (l : Lexeme) : Prop := (∃ t, l.outcome = .ok t) → l.taken ≠ []

/-- A run has the character that started it. -/
theorem progress_run {kind : TokenKind} {p : Char → Bool} {c : Char} {cs : List Char}
    (h : p c = true) : (run kind p (c :: cs)).Progress := by
  intro _; simp [run, spelling, h]

/-- What takes a first character has one. -/
theorem progress_cons {l : Lexeme} {c : Char} {cs : List Char} (h : l.taken = c :: cs) :
    l.Progress := by
  intro _; simp [h]

/-- A fault reads no token. -/
theorem progress_failed (fault : LexicalFault) (taken rest : List Char) :
    (failed fault taken rest).Progress := by
  rintro ⟨_, h⟩; simp [failed] at h

/-- Line breaks and brackets have the character they start with. -/
theorem progress_newline (c : Char) (cs : List Char) : (newline (c :: cs)).Progress := by
  unfold newline; split
  · exact progress_cons rfl
  · exact progress_cons rfl
  · exact progress_failed _ _ _

theorem progress_delimiter (c : Char) (cs : List Char) : (delimiter (c :: cs)).Progress := by
  unfold delimiter; split <;> exact progress_cons rfl

/-- So do quoted texts and the tokens behind a mark. -/
theorem progress_quoted (kind : TokenKind) (front cs : List Char) :
    (quoted kind front cs).Progress := by
  cases cs with
  | nil => exact progress_failed _ _ _
  | cons c cs =>
    simp only [quoted]; split
    · intro _; simp [spelling]
    · exact progress_failed _ _ _

theorem progress_character (cs : List Char) : (character cs).Progress := by
  unfold character
  split
  · exact progress_failed _ _ _
  · exact progress_failed _ _ _
  · split <;> exact progress_cons rfl

theorem progress_unquote (cs : List Char) : (unquote cs).Progress := by
  unfold unquote; split
  · exact progress_cons rfl
  · exact progress_cons rfl
  · exact progress_failed _ _ _

theorem progress_conditional (cs : List Char) : (conditional cs).Progress := by
  unfold conditional; split
  · exact progress_cons rfl
  · exact progress_cons rfl
  · exact progress_failed _ _ _

theorem progress_symbolic (a b : Char) (cs : List Char) : (symbolic a b cs).Progress := by
  simp only [symbolic]; split
  · exact progress_failed _ _ _
  · exact progress_cons rfl

/-- A hash is followed by the rest of its token, a comment up to the line break. -/
theorem progress_dispatch {c : Char} (cs : List Char) (h : isLineBreak c = false) :
    (dispatch (c :: cs)).Progress := by
  unfold dispatch
  split
  case h_6 heq => exact progress_run (by simp_all)
  case h_7 => exact progress_quoted _ _ _
  case h_8 => exact progress_conditional _
  case h_9 => exact progress_symbolic _ _ _
  case h_11 => split <;> first | exact progress_cons rfl | exact progress_failed _ _ _
  case h_12 => exact progress_failed _ _ _
  all_goals exact progress_cons rfl

/-- A word of no characters is refused. -/
theorem progress_word (cs : List Char) : (word cs).Progress := by
  simp only [word]
  split
  · exact progress_failed _ _ _
  · rename_i h
    split
    · exact progress_failed _ _ _
    · split
      · exact progress_failed _ _ _
      · intro _; simpa [spelling] using h

/-- A token that was read has at least one character. -/
theorem progress_read (c : Char) (cs : List Char) : (read c cs).Progress := by
  refine reader_induction (fun r => (r (c :: cs)).Progress) c
    (fun _ => progress_newline _ _) progress_run (fun h => progress_run (by simp [h]))
    (fun h => progress_run (by subst h; decide)) (fun _ => progress_delimiter _ _)
    (fun _ => progress_quoted _ _ _) (fun _ => progress_character _)
    (fun h => progress_dispatch _ (by subst h; decide)) (fun _ => progress_unquote _)
    (fun _ _ _ _ => progress_cons rfl) (progress_word _)

/-- What a token leaves is shorter than what it was read from. -/
theorem rest_length_lt {c : Char} {cs : List Char} {t : TokenKind × String}
    (h : (read c cs).outcome = .ok t) : (read c cs).rest.length < (c :: cs).length := by
  have hne := progress_read c cs ⟨t, h⟩
  have hlen := congrArg List.length (whole_read c cs)
  have hpos := List.length_pos_iff.mpr hne
  simp only [whole, List.length_append] at hlen
  omega

end CljTidy.Lexeme
