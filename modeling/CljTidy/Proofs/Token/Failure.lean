/-
  Texts that cannot be cut into tokens.

  A token is read without a look at what stands behind the character that ends it, so it is read
  again wherever a text is broken off behind it (`read_cut_off`).  Cutting therefore fails at a
  place of its own: the text up to the failing token is cut into the tokens collected so far
  (`scan_failure`).  No reader moves past the end of a text (`read_ne_pastEnd`), since the character
  that picks a reader is there to be taken, and so is every character it has looked at; so every
  fault is reported where its token starts.
-/
import CljTidy.Proofs.Token.Span

namespace CljTidy

open Character

/-! ## The end of the text is never passed -/

namespace Lexeme

/-- The reader did not run past the end of the text. -/
def StaysInside (l : Lexeme) : Prop := l.outcome ≠ .error .pastEnd

/-- A reader that gives a token has not run past the end. -/
theorem staysInside_ok {l : Lexeme} {t : TokenKind × String} (h : l.outcome = .ok t) :
    l.StaysInside := by
  intro hpast
  rw [h] at hpast
  cases hpast

/-- Nor has one that fails for another reason. -/
theorem staysInside_failed {fault : LexicalFault} (h : fault ≠ .pastEnd) (taken rest : List Char) :
    (failed fault taken rest).StaysInside := by
  intro hpast
  exact h (Except.error.inj hpast)

theorem staysInside_newline (c : Char) (cs : List Char) : (newline (c :: cs)).StaysInside := by
  unfold newline
  split
  · exact staysInside_ok rfl
  · exact staysInside_ok rfl
  · rename_i hnil
    cases hnil

theorem staysInside_delimiter (c : Char) (cs : List Char) : (delimiter (c :: cs)).StaysInside := by
  unfold delimiter
  split <;> exact staysInside_ok rfl

/-- A string or a pattern that never ends is a fault of its own. -/
theorem staysInside_quoted (kind : TokenKind) (front : List Char) (c : Char) (cs : List Char) :
    (quoted kind front (c :: cs)).StaysInside := by
  simp only [quoted]
  split
  · exact staysInside_ok rfl
  · exact staysInside_failed (by decide) _ _

/-- So is a backslash with nothing behind it. -/
theorem staysInside_character (c : Char) (cs : List Char) : (character (c :: cs)).StaysInside := by
  unfold character
  split
  · rename_i hnil
    cases hnil
  · exact staysInside_failed (by decide) _ _
  · split <;> exact staysInside_ok rfl

theorem staysInside_unquote (c : Char) (cs : List Char) : (unquote (c :: cs)).StaysInside := by
  unfold unquote
  split
  · exact staysInside_ok rfl
  · exact staysInside_ok rfl
  · rename_i hnil
    cases hnil

theorem staysInside_conditional (cs : List Char) : (conditional cs).StaysInside := by
  unfold conditional
  split
  · exact staysInside_ok rfl
  · exact staysInside_ok rfl
  · exact staysInside_failed (by decide) _ _

/-- So are two `#` without a name behind them. -/
theorem staysInside_symbolic (a b : Char) (cs : List Char) : (symbolic a b cs).StaysInside := by
  simp only [symbolic]
  split
  · exact staysInside_failed (by decide) _ _
  · exact staysInside_ok rfl

/-- The second character decides, and where there is none the `#` itself is at fault: a NUL in the
    text is a character like any other. -/
theorem staysInside_dispatch (cs : List Char) : (dispatch cs).StaysInside := by
  unfold dispatch
  split
  case h_7 => exact staysInside_quoted _ _ _ _
  case h_8 => exact staysInside_conditional _
  case h_9 => exact staysInside_symbolic _ _ _
  case h_11 =>
    split
    · exact staysInside_ok rfl
    · exact staysInside_failed (by simp) _ _
  case h_12 => exact staysInside_failed (by simp) _ _
  all_goals exact staysInside_ok rfl

/-- A word ends at the first character that cannot stand in it; if it has none before that, the
    character itself is at fault. -/
theorem staysInside_word (cs : List Char) : (word cs).StaysInside := by
  simp only [word]
  repeat' split
  · exact staysInside_failed (by simp) _ _
  · exact staysInside_failed (by simp) _ _
  · exact staysInside_failed (by simp) _ _
  · exact staysInside_ok rfl

/-- No reader runs past the end of the text. -/
theorem read_ne_pastEnd (c : Char) (cs : List Char) : (read c cs).outcome ≠ .error .pastEnd :=
  reader_induction (fun r => (r (c :: cs)).StaysInside) c (fun _ => staysInside_newline c cs)
    (fun _ => staysInside_ok rfl) (fun _ => staysInside_ok rfl) (fun _ => staysInside_ok rfl)
    (fun _ => staysInside_delimiter c cs) (fun _ => staysInside_quoted _ _ c cs)
    (fun _ => staysInside_character c cs) (fun _ => staysInside_dispatch _)
    (fun _ => staysInside_unquote c cs) (fun _ _ _ _ => staysInside_ok rfl) (staysInside_word _)

/-! ## Reading a token off a text that is broken off behind it -/

/-- A token that was read starts with the character that picked its reader. -/
theorem taken_eq_cons {c : Char} {cs : List Char} {t : TokenKind × String}
    (hok : (read c cs).outcome = .ok t) : ∃ ts, (read c cs).taken = c :: ts := by
  have hwhole := whole_read c cs
  obtain ⟨d, ts, htaken⟩ := List.exists_cons_of_ne_nil (progress_read c cs ⟨t, hok⟩)
  rw [whole, htaken, List.cons_append] at hwhole
  exact ⟨ts, by rw [htaken, (List.cons.inj hwhole).1]⟩

/-- A line break of two characters is one token as long as the second one is there. -/
theorem newline_cut_off {c : Char} {cs front : List Char}
    (h : front <+: (newline (c :: cs)).rest) :
    ∃ ds, (newline (c :: cs)).taken = c :: ds ∧
      newline (c :: (ds ++ front)) =
        ⟨c :: ds, front, (newline (c :: cs)).outcome⟩ := by
  by_cases hpair : ∃ ds, c = '\r' ∧ cs = '\n' :: ds
  · obtain ⟨ds, rfl, rfl⟩ := hpair
    exact ⟨['\n'], rfl, rfl⟩
  · have hone : ∀ ds, (∀ es, c = '\r' → ds ≠ '\n' :: es) →
        newline (c :: ds) = fixed .newline "\n" [c] ds := by
      intro ds hds
      rw [newline]
      exact hds
    have hcs := hone cs fun es hc hes => hpair ⟨es, hc, hes⟩
    rw [hcs] at h ⊢
    refine ⟨[], rfl, hone front ?_⟩
    -- A line feed in front of what is left would be one behind the carriage return.
    rintro es hc rfl
    obtain ⟨tail, htail⟩ := h
    exact hpair ⟨es ++ tail, hc, htail.symm⟩

/-- **A token broken off.**  A token that was read is read again if the text ends anywhere behind
    it. -/
theorem read_cut_off {c : Char} {cs front : List Char} {t : TokenKind × String}
    (hok : (read c cs).outcome = .ok t) (hfront : front <+: (read c cs).rest) :
    ∃ ds, (read c cs).taken = c :: ds ∧
      read c (ds ++ front) = ⟨c :: ds, front, .ok t⟩ := by
  obtain ⟨kind, value⟩ := t
  by_cases hbreak : isLineBreak c = true
  · have hread : ∀ ds, read c ds = newline (c :: ds) := by
      intro ds
      simp [read, reader, hbreak]
    rw [hread] at hok hfront ⊢
    obtain ⟨ds, htaken, hagain⟩ := newline_cut_off hfront
    exact ⟨ds, htaken, by rw [hread, hagain, hok]⟩
  · obtain ⟨hcovers, hclear⟩ := exact_read c cs kind value hok
    obtain ⟨d, ds, htext, hagain⟩ := read_again hok
    obtain ⟨ts, htaken⟩ := taken_eq_cons hok
    have hvalue : value.toList = (read c cs).taken := by
      cases kind with
      | newline =>
        -- A token that says a line break was taken off one.
        obtain ⟨-, hspan⟩ := hcovers
        rw [htaken] at hspan
        have hc : c = '\r' ∨ c = '\n' := by
          rcases hspan with h | h | h
          · exact .inl (List.cons.inj h).1
          · exact .inl (List.cons.inj h).1
          · exact .inr (List.cons.inj h).1
        rcases hc with rfl | rfl <;> exact absurd rfl hbreak
      | endOfText => exact hcovers.elim
      | _ => exact hcovers
    obtain ⟨rfl, rfl⟩ : c = d ∧ ts = ds := by
      rw [htaken, htext] at hvalue
      exact ⟨(List.cons.inj hvalue).1.symm, (List.cons.inj hvalue).2.symm⟩
    refine ⟨ts, htaken, ?_⟩
    have hclear' : Piece.ClearOf ⟨kind, value⟩ front := by
      intro e he
      obtain ⟨tail, htail⟩ := hfront
      refine hclear e ?_
      rw [← htail, List.head?_append, show front.head? = some e from he]
      rfl
    rw [hagain front hclear', spelling, ← htext, String.ofList_toList]

end Lexeme

/-! ## Where cutting fails -/

/-- **A failure.**  Cutting that fails has come to the end of a part of the text that is cut into
    the tokens collected so far, and the fault is placed there. -/
theorem scan_failure {span : List Char} {position : Position} {cs : List Char} {e : SyntaxError}
    (h : (Scan.from span position cs).fault = some e) :
    ∃ front tail, front ++ tail = cs ∧ tail ≠ [] ∧ e.position = position.after front ∧
      (∃ cause : LexicalFault, e.fault = .lexical cause ∧ cause ≠ .pastEnd) ∧
      ∀ span', (Scan.from span' position front).fault = none ∧
        (Scan.from span' position front).tokens =
          (Scan.from span position cs).tokens ++ [.atEnd e.position] := by
  -- The part grows by the characters of each token that was read.
  fun_induction Scan.from span position cs with
  | case1 span position => cases h
  | case2 span position c cs fault hfault lexeme =>
    obtain rfl : fault.located position lexeme.taken = e := Option.some.inj h
    have hinside : fault ≠ .pastEnd := by
      rintro rfl
      exact Lexeme.read_ne_pastEnd c cs hfault
    have hplace : fault.place position lexeme.taken = position := by
      cases fault <;> first | rfl | exact absurd rfl hinside
    refine ⟨[], c :: cs, rfl, List.cons_ne_nil c cs, hplace, ⟨fault, rfl, hinside⟩, fun span' => ?_⟩
    rw [Scan.from]
    refine ⟨rfl, ?_⟩
    show [Token.atEnd position] = [.atEnd (fault.place position lexeme.taken)]
    rw [hplace]
  | case3 span position c cs kind value hok lexeme later ih =>
    obtain ⟨front, tail, hcs, hne, hplace, hcause, hscan⟩ := ih h
    obtain ⟨ds, htaken, hread⟩ := Lexeme.read_cut_off hok ⟨tail, hcs⟩
    have hwhole : lexeme.taken ++ lexeme.rest = c :: cs := Lexeme.whole_read c cs
    refine ⟨lexeme.taken ++ front, tail, ?_, hne, ?_, hcause, fun span' => ?_⟩
    · rw [List.append_assoc, hcs, hwhole]
    · rw [hplace, Position.after_append]
    · obtain ⟨hfault, htokens⟩ := hscan lexeme.taken
      have hok' := congrArg Lexeme.outcome hread
      rw [show lexeme.taken = c :: ds from htaken, List.cons_append,
        Scan.from_of_ok hok' span' position]
      simp only [hread]
      rw [← htaken]
      exact ⟨hfault, congrArg (⟨kind, some value, position⟩ :: ·) htokens⟩

/-- The fault of running past the end is worded as no other fault is: it starts with an `A`. -/
theorem LexicalFault.message_ne_pastEnd {cause : LexicalFault} (h : cause ≠ .pastEnd) :
    cause.message ≠ LexicalFault.pastEnd.message := by
  have hstart : ∀ front text behind : String, ∀ c, front.toList.head? = some c → c ≠ 'A' →
      front ++ text ++ behind ≠ LexicalFault.pastEnd.message := by
    intro front text behind c hc hne heq
    have hhead := congrArg (fun text => text.toList.head?) heq
    simp only [String.toList_append, List.head?_append, hc, Option.some_or] at hhead
    exact hne (Option.some.inj hhead)
  cases cause with
  | pastEnd => exact absurd rfl h
  | unterminatedString => decide
  | missingCharacter => decide
  | missingSymbolicName => decide
  | conditionalWithoutList => decide
  | unsupportedDispatch c => exact hstart _ _ _ 'U' rfl (by decide)
  | unexpectedCharacter c => exact hstart _ _ _ 'U' rfl (by decide)
  | invalidNumber text => exact hstart _ _ _ 'I' rfl (by decide)
  | invalidKeyword text => exact hstart _ _ _ 'I' rfl (by decide)

/-- **Failures point at the first bad token.**  A text that cannot be cut has an offset at which the
    fault is placed, and up to there it is cut into exactly the tokens collected before the failure.
    The fault is one of a token, and never that of running past the end of the text. -/
theorem tokenize_failure {text : String} {e : SyntaxError} (h : tokenize text = .error e) :
    ∃ p < text.length, e.position = .behind (text.toList.take p) ∧
      tokenize (String.ofList (text.toList.take p)) =
        .ok ((Scan.from [] {} text.toList).tokens ++ [.atEnd e.position]) ∧
      (∃ cause : LexicalFault, e.fault = .lexical cause ∧ cause ≠ .pastEnd) ∧
      e.reason ≠ LexicalFault.pastEnd.message := by
  have hfault : (Scan.from [] {} text.toList).fault = some e := by
    simp only [tokenize] at h
    split at h
    · rename_i heq
      rw [heq, Except.error.inj h]
    · cases h
  obtain ⟨front, tail, htext, hne, hplace, hcause, hscan⟩ := scan_failure hfault
  have hfront : text.toList.take front.length = front := by rw [← htext, List.take_left]
  refine ⟨front.length, ?_, ?_, ?_, hcause, ?_⟩
  · have hlength := congrArg List.length htext
    have hpos := List.length_pos_iff.mpr hne
    rw [List.length_append, String.length_toList] at hlength
    omega
  · rw [hfront, hplace, Position.after_eq_behind]
  · obtain ⟨hnone, htokens⟩ := hscan []
    rw [hfront, tokenize, String.toList_ofList, hnone, htokens]
  · obtain ⟨cause, hlexical, hinside⟩ := hcause
    rw [SyntaxError.reason, hlexical]
    exact cause.message_ne_pastEnd hinside

/-- A string that never ends, over a line break and an escaped quote: the place is its start. -/
theorem tokenize_failure_string :
    ∃ e, tokenize "(a\r\n \"b\nc\\\"" = .error e ∧
      ∃ p < "(a\r\n \"b\nc\\\"".length,
        e.position = .behind ("(a\r\n \"b\nc\\\"".toList.take p) ∧
        tokenize (String.ofList ("(a\r\n \"b\nc\\\"".toList.take p)) =
          .ok ((Scan.from [] {} "(a\r\n \"b\nc\\\"".toList).tokens ++ [.atEnd e.position]) ∧
        (∃ cause : LexicalFault, e.fault = .lexical cause ∧ cause ≠ .pastEnd) ∧
        e.reason ≠ LexicalFault.pastEnd.message := by
  have hfailed : tokenize "(a\r\n \"b\nc\\\"" =
      .error ⟨.lexical .unterminatedString, ⟨2, 2⟩⟩ := by cbv
  exact ⟨_, hfailed, tokenize_failure hfailed⟩

end CljTidy
