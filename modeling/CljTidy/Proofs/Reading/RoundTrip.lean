/-
  Writing a tree and reading it again.

  The tokens of a text keep apart, and reading hardly moves them: it drops trivia behind marks and
  lifts comments in front of them.  So what is read is cut in the same places when it is written
  again.  The frames carry this: the children so far are cut in front of what comes next (`Row`), be
  it the text still to be read or, below another frame, what that frame will turn into (`Fits`).
  Lifted comments may stand where a mark stood, because a token that a mark does not run into is
  closed to comments as well (`absorbs_sign`).

  One token keeps this up (`fits_step`), and so do all of them (`row_run`).  What comes back in the
  end is the tree, but for unquotes that run into dereferences (`parse_document_text`).
-/
import CljTidy.Proofs.Node.ReadBack
import CljTidy.Proofs.Reading.Content
import CljTidy.Proofs.Token.Span

namespace CljTidy

open Character
open Node (piecesBack piecesBack_append piecesBack_singleton chars_piecesBack)

/-! ## What may stand behind a token -/

namespace Piece

/-- Whether tokens are cut depends on the text behind them through the last one only. -/
theorem Cuts.change {rest rest' : List Char} {ps : List Piece} (h : Cuts rest ps)
    (hlast : ∀ p ∈ ps.getLast?, p.ClearOf rest → p.ClearOf rest') : Cuts rest' ps := by
  induction ps with
  | nil => trivial
  | cons p ps ih =>
    obtain ⟨hwhole, hclear, hrest⟩ := h
    cases ps with
    | nil => exact ⟨hwhole, hlast p rfl hclear, trivial⟩
    | cons q ps =>
      refine ⟨hwhole, ?_, ih hrest fun r hr => hlast r (by simpa using hr)⟩
      -- The next token has a first character.
      obtain ⟨c, cs, htext, -⟩ := hrest.1
      intro d hd
      refine hclear d ?_
      rw [chars_cons, htext] at hd ⊢
      exact hd

/-- The characters that marks and comments start with. -/
def signs : List Char := ['\x27', '\x60', '~', '@', '^', '#', ';']

/-- A token that a character of a word does not go into is closed to marks and comments, if it is no
    unquote. -/
theorem absorbs_sign {p : Piece} (hp : p.kind ≠ .unquote) {c d : Char} (hc : c ∈ signs)
    (hd : isTokenChar d = true) (h : p.absorbs d = false) : p.absorbs c = false := by
  have hsigns : signs.all (fun c => !isBlank c && !(c == ',')) = true := by decide
  have hsign := List.all_eq_true.mp hsigns c hc
  rw [Bool.and_eq_true, Bool.not_eq_true', Bool.not_eq_true'] at hsign
  have hline : isLineBreak d = false := by
    cases hline : isLineBreak d with
    | false => rfl
    | true =>
      rcases (by simpa [isLineBreak] using hline : d = '\n' ∨ d = '\r') with rfl | rfl <;> cases hd
  obtain ⟨kind, text⟩ := p
  cases kind with
  | whitespace => exact hsign.1
  | comma => exact hsign.2
  | comment => simp [absorbs, hline] at h
  | unquote => exact absurd rfl hp
  | character =>
    have hfirst : text.toList[1]?.any isAlphanumeric = false := by simpa [absorbs, hd] using h
    simp [absorbs, hfirst]
  | word | symbolic | tag | namespacedMap => simp [absorbs, hd] at h
  | _ => rfl

end Piece

/-- The text starts with a mark or a comment. -/
def Signed (text : List Char) : Prop := ∃ c ∈ Piece.signs, text.head? = some c

/-- What is behind does not change the first character. -/
theorem signed_append {text : List Char} (h : Signed text) (rest : List Char) :
    Signed (text ++ rest) := by
  obtain ⟨c, hc, hhead⟩ := h
  cases text with
  | nil => cases hhead
  | cons d text => exact ⟨c, hc, hhead⟩

/-- Every mark is written with a sign in front. -/
theorem Mark.signed_spelling (m : Mark) : Signed m.spelling.toList := by
  have hhash : ∀ text : String, Signed ("#" ++ text).toList := by
    intro text
    rw [String.toList_append]
    exact ⟨'#', by decide, rfl⟩
  cases m with
  | tagged tag =>
    rw [spelling, String.append_assoc]
    exact hhash _
  | namespaced ns => exact hhash ns
  | conditional splicing => cases splicing <;> exact ⟨'#', by decide, rfl⟩
  | quote => exact ⟨'\x27', by decide, rfl⟩
  | syntaxQuote => exact ⟨'\x60', by decide, rfl⟩
  | unquote | unquoteSplicing => exact ⟨'~', by decide, rfl⟩
  | deref => exact ⟨'@', by decide, rfl⟩
  | varQuote | fnLiteral | discard => exact ⟨'#', by decide, rfl⟩

namespace Reading

/-! ## Rows -/

/-- Nodes in a row are cut in front of a text as they come back, and do not end in an unquote. -/
structure Row (ns : List Node) (rest : List Char) : Prop where
  cuts : Piece.Cuts rest (piecesBack ns)
  last : ∀ p ∈ (piecesBack ns).getLast?, p.kind ≠ .unquote

theorem row_nil (rest : List Char) : Row [] rest := ⟨trivial, by rintro p ⟨⟩⟩

/-- A row depends on the text behind it through what its last token is cut from. -/
theorem Row.change {ns : List Node} {rest rest' : List Char} (h : Row ns rest)
    (hclear : ∀ p : Piece, p.kind ≠ .unquote → p.ClearOf rest → p.ClearOf rest') : Row ns rest' :=
  ⟨h.cuts.change fun p hp => hclear p (h.last p hp), h.last⟩

/-- Comments that are held: they are cut in front of any text, and the text starts with a sign if
    there are any. -/
structure Held (ns : List Node) : Prop where
  cuts : ∀ rest, Piece.Cuts rest (piecesBack ns)
  signed : ns = [] ∨ Signed (Node.textAll ns).toList

theorem held_nil : Held [] := ⟨fun _ => trivial, .inl rfl⟩

/-- Comments behind each other are held as one is. -/
theorem Held.append {xs ys : List Node} (hx : Held xs) (hy : Held ys) : Held (xs ++ ys) := by
  refine ⟨fun rest => ?_, ?_⟩
  · rw [piecesBack_append]
    exact Piece.cuts_append.mpr ⟨hx.cuts _, hy.cuts _⟩
  · rcases hx.signed with rfl | hsigned
    · exact hy.signed
    · rw [Node.textAll_append, String.toList_append]
      exact .inr (signed_append hsigned _)

/-- A sign stands in front, of a comment or of what follows the comments. -/
theorem Held.signed_append {ns : List Node} (h : Held ns) {text : List Char} (ht : Signed text) :
    Signed ((Node.textAll ns).toList ++ text) := by
  rcases h.signed with rfl | hsigned
  · exact ht
  · exact CljTidy.signed_append hsigned _

/-- A single comment, with the line break that ends it. -/
theorem held_comment {text : String} (h : (Node.comment text).Sound) :
    Held [.comment text, .newline "\n"] := by
  cases h with
  | leaf whole _ =>
    refine ⟨fun rest => ⟨whole, fun c hc => ?_, Piece.whole_newline, ?_, trivial⟩, .inr ?_⟩
    · obtain rfl : '\n' = c := Option.some.inj hc
      rfl
    · exact Piece.clearOf_of_none (fun _ => rfl) _
    · have hcomment : Comment.IsComment text.toList := whole.regular
      have hsigned : Signed text.toList := by
        rcases Comment.start_cases hcomment.1 with ⟨cs, hcs⟩ | ⟨cs, hcs⟩ <;> rw [hcs]
        · exact ⟨';', by decide, rfl⟩
        · exact ⟨'#', by decide, rfl⟩
      rw [Node.textAll, String.toList_append]
      exact CljTidy.signed_append hsigned _

/-- A row goes on with comments and a node. -/
theorem Row.add {ns lifted : List Node} {node : Node} {rest : List Char}
    (h : Row ns ((Node.textAll lifted).toList ++ (node.text.toList ++ rest)))
    (hlifted : Held lifted) (hnode : node.Sound) (hcuts : Piece.Cuts rest node.readBack.pieces) :
    Row (ns ++ (lifted ++ [node])) rest := by
  have hchars : Piece.chars node.readBack.pieces = node.text.toList := by
    rw [Node.chars_pieces, Node.text_readBack]
  have hpieces : piecesBack (ns ++ (lifted ++ [node])) =
      piecesBack ns ++ (piecesBack lifted ++ node.readBack.pieces) := by
    rw [piecesBack_append, piecesBack_append, piecesBack_singleton]
  obtain ⟨p, hlast, hkind, -⟩ := hnode.readBack.1.last
  refine ⟨?_, fun q hq => ?_⟩
  · rw [hpieces]
    refine Piece.cuts_append.mpr ⟨?_, Piece.cuts_append.mpr ⟨hlifted.cuts _, hcuts⟩⟩
    rw [Piece.chars_append, chars_piecesBack, hchars, List.append_assoc]
    exact h.cuts
  · rw [hpieces, List.getLast?_append, List.getLast?_append, hlast] at hq
    obtain rfl : p = q := by simpa using hq
    exact hkind

/-! ## Frames -/

/-- What a mark has been given is cut in front of a space. -/
def Duty.Cut : Duty → Prop
  | .target m => ∀ behind, Piece.Cuts (' ' :: behind) m.readBack.pieces
  | .form => False
  | _ => True

/-- Every row is cut in front of what comes next: the text that is left, the opening bracket of the
    frame above, or the mark above and the comments lifted over it. -/
def Fits (done : List Node) : List Frame → List Char → Prop
  | [], rest => Row done.reverse rest
  | .opened opener _ children :: frames, rest =>
      Row children.reverse rest ∧
        ∀ behind, Fits done frames (opener.piece.text.toList ++ behind)
  | .owing duty _ held :: frames, _ =>
      duty.Cut ∧ Held held ∧ ∀ behind, Signed behind → Fits done frames behind

/-- What a move leaves fits in front of the text that is left. -/
def Move.Fits (done : List Node) (rest : List Char) : Move → Prop
  | .go frames => Reading.Fits done frames rest
  | .yield nodes => Reading.Fits (nodes.reverse ++ done) [] rest
  | _ => True

section

variable {done : List Node} {frames : List Frame} {rest : List Char}

/-- What is open depends on the text that is left in the same way. -/
theorem Fits.change {rest' : List Char} (h : Fits done frames rest)
    (hclear : ∀ p : Piece, p.kind ≠ .unquote → p.ClearOf rest → p.ClearOf rest') :
    Fits done frames rest' := by
  cases frames with
  | nil => exact Row.change h hclear
  | cons frame frames =>
    cases frame with
    | opened => exact ⟨h.1.change hclear, h.2⟩
    | owing => exact h

/-- Of what comes next, only the first character matters. -/
theorem Fits.change_behind {text : String} {behind behind' : List Char} (hne : text.toList ≠ [])
    (h : Fits done frames (text.toList ++ behind)) : Fits done frames (text.toList ++ behind') := by
  obtain ⟨c, cs, htext⟩ := List.exists_cons_of_ne_nil hne
  rw [htext] at h ⊢
  exact h.change fun p _ hp d hd => hp d hd

/-! ## Handing a node to the frames -/

/-- A finished node is cut where it is put. -/
theorem fits_complete (hframes : ∀ f ∈ frames, f.Sound) {lifted : List Node} {node : Node}
    (hnode : node.Sound) (hform : owesForm frames = true → node.isForm = true)
    (hlifted : Held lifted) (hcuts : Piece.Cuts rest node.readBack.pieces)
    (hfits : Fits done frames ((Node.textAll lifted).toList ++ (node.text.toList ++ rest))) :
    (complete frames lifted node).Fits done rest := by
  induction frames generalizing lifted node with
  | nil =>
    show Row ((lifted ++ [node]).reverse ++ done).reverse rest
    rw [List.reverse_append, List.reverse_reverse]
    exact Row.add hfits hlifted hnode hcuts
  | cons frame frames ih =>
    obtain ⟨hframe, hrest⟩ := List.forall_mem_cons.mp hframes
    cases frame with
    | opened opener token children =>
      refine ⟨?_, hfits.2⟩
      rw [List.reverse_cons, List.reverse_append, List.reverse_reverse, List.append_assoc]
      exact hfits.1.add hlifted hnode hcuts
    | owing duty token held =>
      obtain ⟨hduty, hheld, hbehind⟩ := hfits
      obtain ⟨hsound, -⟩ := hframe
      have hboth := hheld.append hlifted
      have hn : node.isForm = true := hform rfl
      cases duty with
      | wrap m =>
        rw [complete]
        split
        · rename_i haccepts
          have hwrap : (Node.wrap m node).Sound := .wrap hsound.1 hsound.2 haccepts hn hnode
          refine ih hrest hwrap (fun _ => rfl) hboth
            (Node.cuts_readBack_wrap hwrap hsound.1 hcuts) (hbehind _ (hboth.signed_append ?_))
          rw [Node.text, String.toList_append, List.append_assoc]
          exact signed_append m.signed_spelling _
        · trivial
      | metadata =>
        obtain ⟨p, hlast, -, hend⟩ := hnode.readBack.1.last
        -- The last token of a form is closed to a space.
        refine ⟨fun behind => hcuts.change fun q hq _ => ?_, hboth, hbehind⟩
        obtain rfl : p = q := by simpa [hlast] using hq
        rcases hend ((Node.isForm_readBack node).trans hn) with hclose | hatom
        · refine Piece.clearOf_of_none (fun c => ?_) _
          rw [Piece.absorbs, hclose]
        · exact Piece.clearOf_of_stops hatom (stops_cons (by decide) behind)
      | target m =>
        have hnode' : (Node.annotated m node).Sound := .annotated hsound.2 hn hsound.1 hnode
        refine ih hrest hnode' (fun _ => rfl) hboth
          (Node.cuts_annotated hnode'.readBack.1 hduty hcuts) (hbehind _ (hboth.signed_append ?_))
        rw [Node.text, String.append_assoc, String.append_assoc, String.toList_append]
        exact ⟨'^', by decide, rfl⟩
      | form => exact hduty.elim

/-! ## One token -/

variable {token : Token} {p : Piece}

/-- A leaf that keeps its place. -/
theorem fits_leaf (hframes : ∀ f ∈ frames, f.Sound) {kind : LeafKind} {text : String}
    (hsound : (Node.leaf kind text).Sound)
    (hform : owesForm frames = true → (Node.leaf kind text).isForm = true)
    (hclear : (kind.piece text).ClearOf rest) (hfits : Fits done frames (text.toList ++ rest)) :
    (complete frames [] (.leaf kind text)).Fits done rest := by
  have hwhole : (kind.piece text).Whole := by
    cases hsound with
    | leaf whole _ => exact whole
  exact fits_complete hframes hsound hform held_nil ⟨hwhole, hclear, trivial⟩ hfits

/-- A comment behind a mark is held; anywhere else it is cut where it is put. -/
theorem fits_comment (hframes : ∀ f ∈ frames, f.Sound) {text : String}
    (hsound : (Node.comment text).Sound) (hclear : Piece.ClearOf ⟨.comment, text⟩ rest)
    (hfits : Fits done frames (text.toList ++ rest)) :
    (stepComment text frames).Fits done rest := by
  unfold stepComment
  split
  · obtain ⟨hduty, hheld, hbehind⟩ := hfits
    exact ⟨hduty, hheld.append (held_comment hsound), hbehind⟩
  · rename_i hnot
    refine fits_leaf hframes hsound ?_ hclear hfits
    rw [owesForm_of_no_mark hnot]
    rintro ⟨⟩

theorem fits_trivia (hframes : ∀ f ∈ frames, f.Sound) {kind : LeafKind} {text : String}
    (hsound : (Node.leaf kind text).Sound) (hclear : (kind.piece text).ClearOf rest)
    (hfits : Fits done frames (text.toList ++ rest)) :
    (stepTrivia kind text frames).Fits done rest := by
  unfold stepTrivia
  split
  · rename_i howes
    -- Behind a mark nothing is in front of the trivia that it could run into.
    cases frames with
    | nil => cases howes
    | cons frame frames =>
      cases frame with
      | opened => cases howes
      | owing => exact hfits
  · rename_i howes
    exact fits_leaf hframes hsound (fun h => absurd h howes) hclear hfits

/-- What is made of an opener is written with the token in front. -/
theorem text_build (opener : Opener) (children : List Node) :
    ∃ behind, (opener.build children).text.toList = opener.piece.text.toList ++ behind := by
  have hlist : ∀ text : String, ∃ behind : List Char,
      (text ++ (Node.list children).text).toList = (text ++ "(").toList ++ behind := by
    intro text
    refine ⟨(Node.textAll children).toList ++ [')'], ?_⟩
    simp [Node.text, Bracket.opening, Bracket.closing, String.toList_append]
  cases opener with
  | collection b =>
    rw [Opener.build, Node.text, String.append_assoc, String.toList_append]
    cases b <;> exact ⟨_, rfl⟩
  | fnLiteral => exact hlist "#"
  | conditional splicing =>
    cases splicing with
    | false => exact hlist "#?"
    | true => exact hlist "#?@"

/-- A closing bracket makes a node of its children, which are cut in front of it. -/
theorem fits_closer (hframes : ∀ f ∈ frames, f.Sound) (hsaid : token.said = p.said)
    (hfits : Fits done frames (p.text.toList ++ rest)) :
    (stepCloser .document token frames).Fits done rest := by
  cases frames with
  | nil => trivial
  | cons frame frames =>
  cases frame with
  | owing => trivial
  | opened opener start children =>
    rw [stepCloser]
    split
    · rename_i hvalue
      obtain ⟨⟨hproper, hchildren⟩, hrest⟩ := List.forall_mem_cons.mp hframes
      obtain ⟨hrow, hbehind⟩ := hfits
      have htext : p.text = opener.closing := by
        rw [(said_eq hsaid).2] at hvalue
        exact Option.some.inj hvalue
      have hmembers : ∀ c ∈ children.reverse, c.Sound :=
        fun c hc => hchildren c (List.mem_reverse.mp hc)
      rw [htext] at hrow
      have hcuts := hrow.cuts
      -- The children are cut in front of the closing bracket, so the node is cut in front of the
      -- rest.
      have hbuilt : (opener.build children.reverse).Sound ∧
          Piece.Cuts rest (opener.build children.reverse).readBack.pieces := by
        have hfused : ∀ m : Mark, m.fuses = true →
            Piece.Cuts (")".toList ++ rest) (piecesBack children.reverse) →
            (Node.wrap m (.list children.reverse)).Sound ∧
              Piece.Cuts rest (Node.wrap m (.list children.reverse)).readBack.pieces := by
          intro m hm hcuts
          rw [Node.readBack, Node.readBack_branch, Node.over_branch]
          exact ⟨.fused hm hmembers, Node.cuts_fused hm (Node.cuts_branch rfl hcuts)⟩
        cases opener with
        | collection b =>
          rw [Opener.build, Node.readBack_branch]
          exact ⟨.branch hproper hmembers, Node.cuts_branch hproper hcuts⟩
        | fnLiteral => exact hfused .fnLiteral rfl hcuts
        | conditional splicing => exact hfused (.conditional splicing) rfl hcuts
      have hform : (opener.build children.reverse).isForm = true := by cases opener <;> rfl
      obtain ⟨behind, hopens⟩ := text_build opener children.reverse
      -- The row below was open for the text of the opener, with which the node is written.
      refine fits_complete hrest hbuilt.1 (fun _ => hform) held_nil hbuilt.2 ?_
      rw [hopens, List.append_assoc]
      exact hbehind _
    · trivial

/-- A mark is a token that starts with a character of a word. -/
theorem head_of_mark {duty : Duty} (hsaid : token.said = p.said) (hp : p.Regular)
    (hrole : Role.of token = .mark duty) :
    ∃ d cs, p.text.toList = d :: cs ∧ isTokenChar d = true := by
  have hhash : p.text.toList.head? = some '#' →
      ∃ d cs, p.text.toList = d :: cs ∧ isTokenChar d = true := by
    intro hhead
    obtain ⟨cs, hcs⟩ := List.head?_eq_some_iff.mp hhead
    exact ⟨'#', cs, hcs, by decide⟩
  obtain ⟨hk, -⟩ := said_eq hsaid
  obtain ⟨k, text⟩ := p
  rw [Role.of, hk] at hrole
  cases k <;> cases hrole
  case tag => exact hhash hp
  case namespacedMap => exact hhash hp
  case metadata =>
    rcases (hp : text = "^" ∨ text = "#^") with rfl | rfl
    · exact ⟨'^', [], rfl, by decide⟩
    · exact ⟨'#', ['^'], rfl, by decide⟩
  all_goals
    obtain rfl := show text = _ from hp
    exact ⟨_, _, rfl, by decide⟩

/-- **One token.**  What is open still fits in front of the text behind the token. -/
theorem fits_step (hframes : ∀ f ∈ frames, f.Sound) (hsaid : token.said = p.said)
    (hp : p.Whole) (hclear : p.ClearOf rest) (hfits : Fits done frames (p.text.toList ++ rest)) :
    (step .document frames token).Fits done rest := by
  have hregular := hp.regular
  cases hrole : Role.of token with
  | leaf kind =>
    obtain ⟨hpiece, hatom⟩ := piece_of_leaf hsaid hp hrole
    have hsound : (Node.leaf kind p.text).Sound := .leaf (hpiece.symm ▸ hp) hatom
    rw [← hpiece] at hclear
    rw [step, hrole, text_of_said hsaid]
    cases kind with
    | atom => exact fits_leaf hframes hsound (fun _ => rfl) hclear hfits
    | comment => exact fits_comment hframes hsound hclear hfits
    | _ => exact fits_trivia hframes hsound hclear hfits
  -- An empty row, cut in front of anything; the row below stays cut in front of the opener.
  | opener opener =>
    obtain ⟨rfl, -⟩ := piece_of_opener hsaid hregular hrole
    obtain ⟨c, cs, htext, -⟩ := hp
    rw [step, hrole]
    exact ⟨row_nil _, fun behind => hfits.change_behind (by simp [htext])⟩
  | mark duty =>
    obtain ⟨d, cs, htext, hd⟩ := head_of_mark hsaid hregular hrole
    have hcut : duty.Cut := by
      rcases duty_of_mark hrole with ⟨m, rfl⟩ | rfl <;> trivial
    rw [step, hrole]
    refine ⟨hcut, held_nil, fun behind hsigned => hfits.change fun q hq hclear c hc => ?_⟩
    -- What stands behind the row below from now on is the mark or a comment lifted over it.
    obtain ⟨sign, hsign, hhead⟩ := hsigned
    obtain rfl : sign = c := Option.some.inj (hhead.symm.trans hc)
    rw [htext] at hclear
    exact Piece.absorbs_sign hq hsign hd (hclear d rfl)
  | closer =>
    rw [step, hrole]
    exact fits_closer hframes hsaid hfits
  | finish =>
    rw [step, hrole]
    cases frames with
    | nil => trivial
    | cons frame frames => cases frame <;> trivial

end

/-! ## All tokens -/

/-- **All tokens.**  The nodes at the end are cut as they come back. -/
theorem row_run {last finish : Token} (hfinish : Role.of finish = .finish) :
    ∀ (ps : List Piece) (tokens : List Token) (frames : List Frame) (done nodes : List Node),
      Piece.Cuts [] ps → tokens.map Token.said = ps.map Piece.said →
      (∀ f ∈ frames, f.Sound) → Fits done frames (Piece.chars ps) →
      (run .document last frames done (tokens ++ [finish])).outcome = .ok nodes → Row nodes []
  | [], tokens, frames, done, nodes, _, hts, _, hfits, hrun => by
      obtain rfl : tokens = [] := by simpa using hts
      obtain ⟨rfl, rfl⟩ := nodes_of_finish hfinish hrun
      exact hfits
  | p :: ps, tokens, frames, done, nodes, hps, hts, hframes, hfits, hrun => by
      rw [List.map_cons, List.map_eq_cons_iff] at hts
      obtain ⟨token, tokens, rfl, hsaid, hts⟩ := hts
      obtain ⟨hp, hclear, hps⟩ := hps
      rw [List.append_nil] at hclear
      have hmove := holds_step hframes hsaid hp
      have hfits' := fits_step hframes hsaid hp hclear hfits
      rw [List.cons_append, outcome_run_cons] at hrun
      generalize step .document frames token = move at hmove hfits' hrun
      cases move with
      | go frames' => exact row_run hfinish ps tokens frames' done nodes hps hts hmove.1 hfits' hrun
      | yield new =>
        exact row_run hfinish ps tokens [] (new.reverse ++ done) nodes hps hts (by simp) hfits' hrun
      | finished => exact hmove.elim
      | fault error behind => cases hrun

end Reading

/-- The tokens of the nodes of a text are cut as they come back. -/
theorem cuts_of_parse {text : String} {children : List Node} (h : parse text = .ok children) :
    Piece.Cuts [] (piecesBack children) := by
  obtain ⟨tokens, htokens⟩ := tokenize_of_parse h
  obtain ⟨ps, hsaid, hcuts⟩ := cuts_of_tokenize htokens
  rw [parse, htokens] at h
  have hrun : (Reading.document tokens).outcome = .ok children := h
  obtain ⟨ts, e, rfl, hts, hfinish⟩ := Reading.split_finish hsaid
  exact (Reading.row_run hfinish ps ts [] [] children hcuts hts (by simp) (Reading.row_nil _)
    hrun).cuts

theorem text_document (children : List Node) :
    (Node.document children).text = Node.textAll children := by
  simp [Node.text, Bracket.opening, Bracket.closing]

/-- **Writing and reading again.**  The text of a tree that was read is read as the tree, with every
    unquote of a dereference read as one mark; so the tree is read again exactly if there are
    none. -/
theorem parse_document_text {text : String} {children : List Node}
    (h : parse text = .ok children) :
    parse (Node.document children).text = .ok (children.map Node.readBack) ∧
      (parse (Node.document children).text = .ok children ↔
        (Node.document children).lacks Node.unquotesDeref = true) := by
  have hsound := sound_of_parse h
  have hagain : parse (Node.document children).text = .ok (children.map Node.readBack) := by
    rw [text_document, ← Node.textAll_readBack]
    refine parse_pieces (fun n hn => ?_) (cuts_of_parse h)
    obtain ⟨c, hc, rfl⟩ := List.mem_map.mp hn
    exact (hsound c hc).readBack.1
  have hmap : children.map Node.readBack = children ↔ ∀ c ∈ children, c.readBack = c := by
    simpa using List.map_inj_left (l := children) (f := Node.readBack) (g := id)
  refine ⟨hagain, ?_⟩
  rw [hagain, Except.ok.injEq, hmap, Node.lacks_branch]
  constructor
  · intro hsame
    exact ⟨rfl, fun c hc => (hsound c hc).readBack_eq_self.mp (hsame c hc)⟩
  · intro hlacks c hc
    exact (hsound c hc).readBack_eq_self.mpr (hlacks.2 c hc)

/-- A comment that is lifted to a string, and an unquote of a dereference: what comes back
    splices. -/
theorem parse_document_text_splicing :
    let children : List Node := [.vector [.atom "\"s\"", .comment "#!b", .newline "\n",
      .wrap .quote (.wrap .unquote (.wrap .deref (.atom "c")))]]
    parse "[\"s\"'#!b\n~ @c]" = .ok children ∧
      parse (Node.document children).text = .ok [.vector [.atom "\"s\"", .comment "#!b",
        .newline "\n", .wrap .quote (.wrap .unquoteSplicing (.atom "c"))]] ∧
      parse (Node.document children).text ≠ .ok children := by
  intro children
  have hparse : parse "[\"s\"'#!b\n~ @c]" = .ok children := by cbv
  obtain ⟨hagain, hsame⟩ := parse_document_text hparse
  have hruns : (Node.document children).lacks Node.unquotesDeref = false := by cbv
  refine ⟨hparse, hagain, fun h => ?_⟩
  rw [hsame.mp h] at hruns
  cases hruns

end CljTidy
