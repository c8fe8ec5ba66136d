/-
  Formatting keeps a program.

  The formatted text is read back as exactly the tree that was laid out (`parse_format`), and its
  tokens are those of the text: the same code in the same order, and the same comments in their tidy
  form (`tokenize_format`).
-/
import CljTidy.Format
import CljTidy.Proofs.Layout.Content
import CljTidy.Proofs.Reading.Content
import Mathlib

namespace CljTidy

open Layout (Fit documentNodes)

/-! ## Reading -/

/-- What a text that can be read is formatted to. -/
theorem format_of_parse {text : String} {children : List Node} (h : parse text = .ok children) :
    format text = .ok (Node.textAll (documentNodes children)) := by
  have htext : (Layout.render .standard 0 (.document children)).text =
      Node.textAll (documentNodes children) := by
    rw [Layout.render_document, Node.text]
    simp [Bracket.opening, Bracket.closing]
  rw [format, h]
  exact congrArg Except.ok htext

theorem fit_of_parse {text : String} {children : List Node} (h : parse text = .ok children)
    (hns : (Node.document children).lacks Node.declaresNamespace = true)
    (hderef : (Node.document children).lacks Node.unquotesDeref = true) :
    ∀ c ∈ children, Fit c :=
  fun c hc => ⟨sound_of_parse h c hc, (Node.lacks_branch.mp hns).2 c hc,
    (Node.lacks_branch.mp hderef).2 c hc⟩

/-! ## The tree -/

/-- **Formatted text reads back.**  Without namespace declarations and unquoted dereferences, the
    formatted text is read as the tree that was laid out, trivia and comments included. -/
theorem parse_format {text : String} {children : List Node} (hparse : parse text = .ok children)
    (hns : (Node.document children).lacks Node.declaresNamespace = true)
    (hderef : (Node.document children).lacks Node.unquotesDeref = true) :
    ∃ out, format text = .ok out ∧
      (parse out).map Node.document = .ok (Layout.render .standard 0 (.document children)) := by
  refine ⟨_, format_of_parse hparse, ?_⟩
  have hlegible := Layout.legible_of_fit (fit_of_parse hparse hns hderef)
  rw [Layout.parse_document hlegible, Layout.render_document]
  rfl

set_option maxRecDepth 2000 in
/-- Two discards on one form, a character literal that is a space, and a comment in between. -/
theorem parse_format_discards :
    ∃ children, parse "(f ;why\n #_ #_ ~a \\  [b])" = .ok children ∧
      (Node.document children).lacks Node.declaresNamespace = true ∧
      (Node.document children).lacks Node.unquotesDeref = true ∧
      ∃ out, format "(f ;why\n #_ #_ ~a \\  [b])" = .ok out ∧
        (parse out).map Node.document = .ok (Layout.render .standard 0 (.document children)) := by
  have hparse : parse "(f ;why\n #_ #_ ~a \\  [b])" =
      .ok [.list [.atom "f", .space " ", .comment ";why", .newline "\n", .space " ",
        .discard (.discard (.wrap .unquote (.atom "a"))), .space " ", .atom "\\ ", .space " ",
        .vector [.atom "b"]]] := by cbv
  refine ⟨_, hparse, ?hns, ?hderef, parse_format hparse ?hns ?hderef⟩
  case hns => cbv
  case hderef => cbv

/-! ## The tokens -/

namespace Token

/-- What the tokens say that are code. -/
def code (tokens : List Token) : List (TokenKind × Option String) :=
  (tokens.filter fun t => t.kind.isCode).map said

/-- The comments among tokens. -/
def comments (tokens : List Token) : List String :=
  (tokens.filter fun t => t.kind == .comment).map text

/-- Metadata written `#^` read as if it were written `^`. -/
def caret (said : TokenKind × Option String) : TokenKind × Option String :=
  if said = (.metadata, some "#^") then (.metadata, some "^") else said

theorem caret_said (p : Piece) : caret p.said = p.caret.said := by
  obtain ⟨kind, text⟩ := p
  simp only [caret, Piece.caret, Piece.said, Prod.mk.injEq, Option.some.injEq, Piece.mk.injEq]
  split <;> rfl

/-- The code and the comments of tokens are those of their pieces. -/
theorem content_of_said {tokens : List Token} {ps : List Piece}
    (h : tokens.map said = ps.map Piece.said ++ [(.endOfText, none)]) :
    code tokens = (Piece.code ps).map Piece.said ∧ comments tokens = Piece.comments ps := by
  induction ps generalizing tokens with
  | nil =>
    obtain ⟨t, rfl, ht⟩ := List.map_eq_singleton_iff.mp h
    have hk : t.kind = .endOfText := congrArg Prod.fst ht
    simp [code, comments, hk, TokenKind.isCode]
  | cons p ps ih =>
    rw [List.map_cons, List.cons_append] at h
    obtain ⟨t, ts, rfl, ht, hts⟩ := List.map_eq_cons_iff.mp h
    obtain ⟨hcode, hcomments⟩ := ih hts
    have hk := (Reading.said_eq ht).1
    constructor
    · cases hc : p.kind.isCode <;> simpa [code, Piece.code, hk, hc, ht] using hcode
    · have htext := Reading.text_of_said ht
      cases hc : p.kind == .comment <;>
        simpa [comments, Piece.comments, hk, hc, htext] using hcomments

end Token

/-- **Formatting keeps the tokens.**  Without namespace declarations, stacked discards and unquoted
    dereferences, the formatted text has the same code, metadata aside that is written `#^`, and
    the same comments in their tidy form. -/
theorem tokenize_format {text : String} {children : List Node} (hparse : parse text = .ok children)
    (hns : (Node.document children).lacks Node.declaresNamespace = true)
    (hdiscards : (Node.document children).lacks Node.stacksDiscards = true)
    (hderef : (Node.document children).lacks Node.unquotesDeref = true) :
    ∃ out before after, format text = .ok out ∧ tokenize text = .ok before ∧
      tokenize out = .ok after ∧ Token.code after = (Token.code before).map Token.caret ∧
      (Token.comments after).Perm ((Token.comments before).map Comment.tidy) := by
  have hfit := fit_of_parse hparse hns hderef
  obtain ⟨before, hbefore⟩ := tokenize_of_parse hparse
  obtain ⟨-, ps, hsaid, hcode, hcomments⟩ := content_of_parse hbefore hparse
  obtain ⟨after, hafter, hsaid'⟩ :=
    tokenize_pieces (Layout.cuts_document (Layout.legible_of_fit hfit)).2
    (Node.chars_piecesAll (documentNodes children)).symm
  obtain ⟨hkeep, hkeeps⟩ := Layout.keeps_document hfit
  obtain ⟨hcb, htb⟩ := Token.content_of_said hsaid
  obtain ⟨hca, hta⟩ := Token.content_of_said hsaid'
  refine ⟨_, before, after, format_of_parse hparse, hbefore, hafter, ?_, ?_⟩
  · have hlayout : Piece.code (Node.piecesAll (documentNodes children)) =
        (Piece.code ps).map Piece.caret :=
      (hkeep (Node.lacks_branch.mp hdiscards).2).trans hcode
    rw [hca, hcb, hlayout, List.map_map, List.map_map]
    exact List.map_congr_left fun p _ => (Token.caret_said p).symm
  · rw [hta, htb]
    exact hkeeps.trans (hcomments.map Comment.tidy)

/-- Metadata in the long spelling, a comment behind a mark and one at the end of a list. -/
theorem tokenize_format_metadata :
    ∃ children, parse "#^:k ';a\n(b, ;c\n)" = .ok children ∧
      (Node.document children).lacks Node.declaresNamespace = true ∧
      (Node.document children).lacks Node.stacksDiscards = true ∧
      (Node.document children).lacks Node.unquotesDeref = true ∧
      ∃ out before after, format "#^:k ';a\n(b, ;c\n)" = .ok out ∧
        tokenize "#^:k ';a\n(b, ;c\n)" = .ok before ∧ tokenize out = .ok after ∧
        Token.code after = (Token.code before).map Token.caret ∧
        (Token.comments after).Perm ((Token.comments before).map Comment.tidy) := by
  have hparse : parse "#^:k ';a\n(b, ;c\n)" =
      .ok [.comment ";a", .newline "\n", .annotated (.atom ":k") (.wrap .quote
        (.list [.atom "b", .comma ",", .space " ", .comment ";c", .newline "\n"]))] := by cbv
  refine ⟨_, hparse, ?hns, ?hdiscards, ?hderef, tokenize_format hparse ?hns ?hdiscards ?hderef⟩
  case hns => cbv
  case hdiscards => cbv
  case hderef => cbv

end CljTidy
