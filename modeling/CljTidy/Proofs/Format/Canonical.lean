/-
  The layout is canonical.

  How a text is formatted does not depend on how it was spaced.  Two texts whose tokens are the same
  line by line, or the same but for trivia if there are no comments, are read to trees with the same
  gist, and these are written with the same text (`format_spacing`); namespace declarations are no
  exception.
-/
import CljTidy.Proofs.Format.Faithful
import CljTidy.Proofs.Layout.Gist
import CljTidy.Proofs.Reading.Respacing

namespace CljTidy

open Reading (Respaced Agree)

/-! ## Tokens without their spacing -/

namespace Token

/-- Every run of line breaks as one; `again` says that one was just passed. -/
def joinBreaks : Bool → List (TokenKind × Option String) → List (TokenKind × Option String)
  | _, [] => []
  | again, s :: rest =>
      if s.1 = .newline then (if again then [] else [s]) ++ joinBreaks true rest
      else s :: joinBreaks false rest

/-- What tokens say line by line: without white space and commas, with runs of line breaks as
    one. -/
def lines (tokens : List Token) : List (TokenKind × Option String) :=
  joinBreaks false ((tokens.filter fun t => t.kind ≠ .whitespace ∧ t.kind ≠ .comma).map said)

/-- What tokens say that are no trivia. -/
def solid (tokens : List Token) : List (TokenKind × Option String) :=
  (tokens.filter fun t => !t.kind.isTrivia).map said

/-- Some token that says what is asked. -/
def saying (s : TokenKind × Option String) : Token := ⟨s.1, s.2, {}⟩

theorem map_saying (ss : List (TokenKind × Option String)) : (ss.map saying).map said = ss := by
  rw [List.map_map]
  exact List.map_id ss

end Token

/-- Tokens and what they say line by line. -/
theorem respaced_lines {ts : List Token} : ∀ {again : Bool} {vs : List Token},
    Token.joinBreaks again
      ((ts.filter fun t => t.kind ≠ .whitespace ∧ t.kind ≠ .comma).map Token.said) =
        vs.map Token.said →
    Respaced true again ts vs := by
  induction ts with
  | nil =>
    intro again vs h
    obtain rfl : vs = [] := by simpa [Token.joinBreaks] using h.symm
    exact .nil
  | cons t ts ih =>
    intro again vs h
    by_cases hkept : t.kind ≠ .whitespace ∧ t.kind ≠ .comma
    · rw [List.filter_cons_of_pos (by simpa using hkept), List.map_cons, Token.joinBreaks] at h
      by_cases hbreak : t.said.1 = .newline
      · have hkind : t.kind = .newline := hbreak
        rw [if_pos hbreak] at h
        cases again with
        -- A second line break in a row is passed over.
        | true => exact .skip (by rw [hkind]; rfl) (fun _ _ => rfl) (ih h)
        -- The first one is kept, and there is one on the other side.
        | false =>
          obtain ⟨v, vs, rfl, hv, hvs⟩ := List.map_eq_cons_iff.mp h.symm
          refine .same hv.symm (fun _ => rfl) ?_
          rw [hkind]
          exact ih hvs.symm
      · have hkind : t.kind ≠ .newline := hbreak
        rw [if_neg hbreak] at h
        obtain ⟨v, vs, rfl, hv, hvs⟩ := List.map_eq_cons_iff.mp h.symm
        refine .same hv.symm (fun _ => rfl) ?_
        rw [beq_eq_false_iff_ne.mpr hkind]
        exact ih hvs.symm
    · -- White space and commas are passed over.
      rw [List.filter_cons_of_neg (by simpa using hkept)] at h
      have hkind : t.kind = .whitespace ∨ t.kind = .comma := by
        by_cases hw : t.kind = .whitespace
        · exact .inl hw
        · exact .inr (Decidable.of_not_not fun hc => hkept ⟨hw, hc⟩)
      rcases hkind with hk | hk
      · exact .skip (by rw [hk]; rfl) (fun _ hn => by cases hk.symm.trans hn) (ih h)
      · exact .skip (by rw [hk]; rfl) (fun _ hn => by cases hk.symm.trans hn) (ih h)

/-- Tokens without comments and what they say that are no trivia. -/
theorem respaced_solid {ts : List Token} (hcomments : ∀ t ∈ ts, t.kind ≠ .comment) :
    ∀ {broken : Bool} {vs : List Token}, Token.solid ts = vs.map Token.said →
      Respaced false broken ts vs := by
  induction ts with
  | nil =>
    intro broken vs h
    obtain rfl : vs = [] := by simpa [Token.solid] using h.symm
    exact .nil
  | cons t ts ih =>
    intro broken vs h
    obtain ⟨ht, hrest⟩ := List.forall_mem_cons.mp hcomments
    cases htrivia : t.kind.isTrivia with
    | true =>
      refine .skip htrivia (by rintro ⟨⟩) (ih hrest ?_)
      rw [← h, Token.solid, Token.solid, List.filter_cons, htrivia]
      rfl
    | false =>
      rw [Token.solid, List.filter_cons, htrivia] at h
      obtain ⟨v, vs, rfl, hv, hvs⟩ := List.map_eq_cons_iff.mp h.symm
      exact .same hv.symm (fun hk => absurd hk ht) (ih hrest hvs.symm)

/-! ## Formatting -/

/-- Readings that agree are formatted the same, or not at all. -/
theorem format_of_agree {x y : String} (h : Agree (parse x) (parse y)) :
    (∃ out, format x = .ok out ∧ format y = .ok out) ∨
      ∃ e e', format x = .error e ∧ format y = .error e' := by
  have herror : ∀ {text : String} {e : SyntaxError}, parse text = .error e →
      format text = .error e := by
    intro text e he
    rw [format, he]
    rfl
  generalize hx : parse x = a at h
  generalize hy : parse y = b at h
  cases h with
  | ok gists =>
    refine .inl ⟨_, format_of_parse hx, ?_⟩
    rw [format_of_parse hy, Layout.text_document gists]
  | error e e' => exact .inr ⟨e, e', herror hx, herror hy⟩

theorem parse_of_tokenize {text : String} {tokens : List Token} (h : tokenize text = .ok tokens) :
    parse text = (Reading.document tokens).outcome := by
  rw [parse, h]
  rfl

/-- **The layout is canonical.**  Texts whose tokens are the same line by line, or the same but for
    trivia if none is a comment, are formatted to the same text, or neither is formatted. -/
theorem format_spacing {x y : String} {ts us : List Token} (hx : tokenize x = .ok ts)
    (hy : tokenize y = .ok us)
    (h : Token.lines ts = Token.lines us ∨
      ((∀ t ∈ ts, t.kind ≠ .comment) ∧ (∀ t ∈ us, t.kind ≠ .comment) ∧
        Token.solid ts = Token.solid us)) :
    (∃ out, format x = .ok out ∧ format y = .ok out) ∨
      ∃ e e', format x = .error e ∧ format y = .error e' := by
  apply format_of_agree
  rw [parse_of_tokenize hx, parse_of_tokenize hy]
  -- Both token lists are compared with the one that has no more trivia than it must.
  rcases h with hlines | ⟨hts, hus, hsolid⟩
  · have hleft : Respaced true false ts ((Token.lines ts).map Token.saying) :=
      respaced_lines (Token.map_saying _).symm
    have hright : Respaced true false us ((Token.lines us).map Token.saying) :=
      respaced_lines (Token.map_saying _).symm
    exact Reading.agree_document hleft (hlines ▸ hright)
  · have hleft : Respaced false false ts ((Token.solid ts).map Token.saying) :=
      respaced_solid hts (Token.map_saying _).symm
    have hright : Respaced false false us ((Token.solid us).map Token.saying) :=
      respaced_solid hus (Token.map_saying _).symm
    exact Reading.agree_document hleft (hsolid ▸ hright)

/-- A namespace declaration with a comment, spaced in two ways. -/
theorem format_spacing_namespace :
    ∃ ts us, tokenize "(ns a (:require [c] ;z\n b))" = .ok ts ∧
      tokenize "(ns a,(:require\t[c];z\n ,\n b ) )" = .ok us ∧ Token.lines ts = Token.lines us ∧
      ((∃ out, format "(ns a (:require [c] ;z\n b))" = .ok out ∧
          format "(ns a,(:require\t[c];z\n ,\n b ) )" = .ok out) ∨
        ∃ e e', format "(ns a (:require [c] ;z\n b))" = .error e ∧
          format "(ns a,(:require\t[c];z\n ,\n b ) )" = .error e') := by
  have hok : ∀ {text : String} {ss : List (TokenKind × Option String)},
      (tokenize text).map Token.lines = .ok ss →
        ∃ ts, tokenize text = .ok ts ∧ Token.lines ts = ss := by
    intro text ss h
    cases ht : tokenize text with
    | error e => rw [ht] at h; cases h
    | ok ts => rw [ht] at h; exact ⟨ts, rfl, Except.ok.inj h⟩
  obtain ⟨ts, hts, hlines⟩ : ∃ ts, tokenize "(ns a (:require [c] ;z\n b))" = .ok ts ∧
      Token.lines ts = [(.openList, some "("), (.word, some "ns"), (.word, some "a"),
        (.openList, some "("), (.word, some ":require"), (.openVector, some "["), (.word, some "c"),
        (.close, some "]"), (.comment, some ";z"), (.newline, some "\n"), (.word, some "b"),
        (.close, some ")"), (.close, some ")"), (.endOfText, none)] := hok (by cbv)
  obtain ⟨us, hus, hlines'⟩ : ∃ us, tokenize "(ns a,(:require\t[c];z\n ,\n b ) )" = .ok us ∧
      Token.lines us = Token.lines ts := hok (by rw [hlines]; cbv)
  exact ⟨ts, us, hts, hus, hlines'.symm, format_spacing hts hus (.inl hlines'.symm)⟩

end CljTidy
