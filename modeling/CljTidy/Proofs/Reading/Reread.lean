/-
  Reading the tokens of a tree gives the tree.

  A run depends on the frames that are open only through `complete`: the tokens of a sound form
  bring the machine from any frames to where `complete` hands the form to them (`run_pieces`).  The
  children of a bracket follow by induction over the list, and so does a whole document
  (`parse_pieces`).
-/
import CljTidy.Proofs.Node.Pieces
import CljTidy.Reading.Run

namespace CljTidy.Reading

open CljTidy (Node)

/-! ## Going on after a move -/

/-- The outcome of reading on after a move. -/
def proceed (last : Token) (done : List Node) (tokens : List Token) :
    Move → Except SyntaxError (List Node)
  | .go frames => (run .document last frames done tokens).outcome
  | .yield nodes => (run .document last [] (nodes.reverse ++ done) tokens).outcome
  | .finished => .ok done.reverse
  | .fault error _ => .error error

/-- A leaf that is passed does not change what is read. -/
@[simp] theorem outcome_addLeaf (isLeaf : Bool) (token : Token) (r : Result) :
    (r.addLeaf isLeaf token).outcome = r.outcome := by
  unfold Result.addLeaf
  split <;> rfl

/-- One token: the outcome is that of going on after its move. -/
theorem outcome_run_cons (last : Token) (frames : List Frame) (done : List Node) (token : Token)
    (tokens : List Token) :
    (run .document last frames done (token :: tokens)).outcome =
      proceed last done tokens (step .document frames token) := by
  rw [run]
  cases step .document frames token with
  | go frames => simp [proceed]
  | yield nodes => simp [proceed]
  | finished => simp [proceed]
  | fault error behind => cases behind <;> simp [proceed]

/-! ## The part a piece plays -/

/-- A token that says what a piece says has its kind and its text. -/
theorem said_eq {token : Token} {p : Piece} (h : token.said = p.said) :
    token.kind = p.kind ∧ token.value = some p.text := by
  simpa [Token.said, Piece.said] using h

theorem text_of_said {token : Token} {p : Piece} (h : token.said = p.said) :
    token.text = p.text := by
  simp [Token.text, (said_eq h).2]

theorem role_atom {token : Token} (h : token.kind.isAtom = true) :
    Role.of token = .leaf .atom := by
  obtain ⟨kind, value, position⟩ := token
  cases kind <;> first | rfl | cases h

/-- The token of a leaf becomes that leaf. -/
theorem role_leaf {token : Token} {kind : LeafKind} {text : String}
    (h : token.said = (kind.piece text).said)
    (hatom : kind = .atom → (Piece.kindOf text).isAtom = true) : Role.of token = .leaf kind := by
  have hk := (said_eq h).1
  cases kind with
  | atom =>
    have ha := hatom rfl
    rw [show Piece.kindOf text = token.kind from hk.symm] at ha
    exact role_atom ha
  | _ => rw [Role.of, hk]; rfl

/-- The token of an opening bracket opens it. -/
theorem role_bracket {token : Token} {b : Bracket} (h : token.said = b.piece.said)
    (hb : b.isCollection = true) : Role.of token = .opener (.collection b) := by
  rw [Role.of, (said_eq h).1]
  cases b <;> first | rfl | cases hb

/-- The opener that a fusing mark makes with the bracket of its list. -/
def openerOf : Mark → Opener
  | .conditional splicing => .conditional splicing
  | _ => .fnLiteral

/-- What a fusing mark opens makes the mark over a list. -/
theorem build_openerOf {m : Mark} (hm : m.fuses = true) (cs : List Node) :
    (openerOf m).build cs = .wrap m (.list cs) := by
  cases m <;> first | rfl | cases hm

theorem closing_openerOf (m : Mark) : (openerOf m).closing = ")" := by
  cases m <;> rfl

/-- A mark and the bracket of its list, read as one token, open both. -/
theorem role_fused {token : Token} {m : Mark} (hm : m.fuses = true)
    (h : token.said = (Piece.mk m.piece.kind (m.spelling ++ "(")).said) :
    Role.of token = .opener (openerOf m) := by
  obtain ⟨hk, hv⟩ := said_eq h
  cases m with
  | fnLiteral => rw [Role.of, hk]; rfl
  | conditional splicing =>
    rw [Role.of, hk, hv]
    cases splicing <;> rfl
  | _ => cases hm

/-- Any other mark waits for a form. -/
theorem role_mark {token : Token} {m : Mark} (hm : m.fuses = false)
    (h : token.said = m.piece.said) : Role.of token = .mark (.wrap m) := by
  obtain ⟨hk, hv⟩ := said_eq h
  cases m with
  | tagged tag =>
    have hname : nameOf token = tag := by
      rw [nameOf, text_of_said h, Mark.piece, String.toList_append]
      exact String.ofList_toList
    rw [Role.of, hk, Mark.piece]
    exact congrArg (fun t => Role.mark (.wrap (.tagged t))) hname
  | namespaced ns =>
    have hname : nameOf token = ns := by
      rw [nameOf, text_of_said h, Mark.piece, String.toList_append]
      exact String.ofList_toList
    rw [Role.of, hk, Mark.piece]
    exact congrArg (fun t => Role.mark (.wrap (.namespaced t))) hname
  | fnLiteral => cases hm
  | conditional => cases hm
  | _ => rw [Role.of, hk]; rfl

/-- The tokens of a text are those of its pieces and the one at the end. -/
theorem split_finish {tokens : List Token} {ps : List Piece}
    (h : tokens.map Token.said = ps.map Piece.said ++ [(.endOfText, none)]) :
    ∃ ts e, tokens = ts ++ [e] ∧ ts.map Token.said = ps.map Piece.said ∧ Role.of e = .finish := by
  rw [List.map_eq_append_iff] at h
  obtain ⟨ts, es, rfl, hts, hes⟩ := h
  rw [List.map_eq_singleton_iff] at hes
  obtain ⟨e, rfl, he⟩ := hes
  have hk : e.kind = .endOfText := congrArg Prod.fst he
  exact ⟨ts, e, rfl, hts, by rw [Role.of, hk]⟩

/-- The tokens of a bracketed list are those of its brackets and those between them. -/
theorem split_bracketed {tokens : List Token} {opening closing : Piece} {ps : List Piece}
    (h : tokens.map Token.said = (opening :: (ps ++ [closing])).map Piece.said) :
    ∃ t mid close, tokens = t :: (mid ++ [close]) ∧ t.said = opening.said ∧
      mid.map Token.said = ps.map Piece.said ∧ close.said = closing.said := by
  rw [List.map_cons, List.map_append, List.map_eq_cons_iff] at h
  obtain ⟨t, us, rfl, ht, hus⟩ := h
  rw [List.map_eq_append_iff] at hus
  obtain ⟨mid, cs, rfl, hmid, hcs⟩ := hus
  rw [List.map_singleton, List.map_eq_singleton_iff] at hcs
  obtain ⟨close, rfl, hclose⟩ := hcs
  exact ⟨t, mid, close, rfl, ht, hmid, hclose⟩

/-! ## Reading pieces -/

section

variable {last : Token}

/-- The tokens bring the machine from any frames to where the node is handed to them. -/
def Rereads (last : Token) (n : Node) : Prop :=
  ∀ (frames : List Frame) (done : List Node) (tokens rest : List Token),
    (owesForm frames = true → n.isForm = true) →
    tokens.map Token.said = n.pieces.map Piece.said →
    (run .document last frames done (tokens ++ rest)).outcome =
      proceed last done rest (complete frames [] n)

/-- The children of an open bracket are taken in one by one. -/
theorem run_children {opener : Opener} {token : Token} {frames : List Frame} {done : List Node}
    {rest : List Token} :
    ∀ (cs acc : List Node) (tokens : List Token), (∀ c ∈ cs, Rereads last c) →
      tokens.map Token.said = (Node.piecesAll cs).map Piece.said →
      (run .document last (.opened opener token acc :: frames) done (tokens ++ rest)).outcome =
        (run .document last (.opened opener token (cs.reverse ++ acc) :: frames) done rest).outcome
  | [], acc, tokens, _, ht => by
      obtain rfl : tokens = [] := by simpa [Node.piecesAll] using ht
      rfl
  | c :: cs, acc, tokens, hcs, ht => by
      rw [Node.piecesAll, List.map_append, List.map_eq_append_iff] at ht
      obtain ⟨ts, us, rfl, hts, hus⟩ := ht
      have howes : owesForm (.opened opener token acc :: frames) = false := rfl
      rw [List.append_assoc, hcs c (List.mem_cons_self ..) _ done ts (us ++ rest)
        (by rw [howes]; rintro ⟨⟩) hts]
      show (run .document last (.opened opener token (c :: acc) :: frames) done (us ++ rest)).outcome
        = _
      rw [run_children cs (c :: acc) us (fun d hd => hcs d (List.mem_cons_of_mem _ hd)) hus,
        List.reverse_cons, List.append_assoc, List.singleton_append]

/-- An opener, children and the closing bracket make the node. -/
theorem run_opened {opener : Opener} {t close : Token} {mid rest : List Token} {cs : List Node}
    (frames : List Frame) (done : List Node) (hrole : Role.of t = .opener opener)
    (hmid : mid.map Token.said = (Node.piecesAll cs).map Piece.said)
    (hclose : close.said = (Piece.mk .close opener.closing).said)
    (hcs : ∀ c ∈ cs, Rereads last c) :
    (run .document last frames done (t :: (mid ++ [close]) ++ rest)).outcome =
      proceed last done rest (complete frames [] (opener.build cs)) := by
  have hopen : step .document frames t = .go (.opened opener t [] :: frames) := by
    rw [step, hrole]
  have hrole' : Role.of close = .closer := by rw [Role.of, (said_eq hclose).1]
  have hclosed : step .document (.opened opener t cs.reverse :: frames) close =
      complete frames [] (opener.build cs) := by
    rw [step, hrole']
    show stepCloser _ _ _ = _
    rw [stepCloser, if_pos (said_eq hclose).2, List.reverse_reverse]
  rw [List.cons_append, outcome_run_cons, hopen, List.append_assoc]
  show (run .document last (.opened opener t [] :: frames) done (mid ++ ([close] ++ rest))).outcome
    = _
  rw [run_children cs [] mid hcs hmid, List.append_nil, List.singleton_append, outcome_run_cons,
    hclosed]

/-- The space behind a mark is skipped. -/
theorem run_skip {duty : Duty} {mark t : Token} {held : List Node} {frames : List Frame}
    {done : List Node} {rest : List Token} (h : t.said = (Piece.mk .whitespace " ").said) :
    (run .document last (.owing duty mark held :: frames) done (t :: rest)).outcome =
      (run .document last (.owing duty mark held :: frames) done rest).outcome := by
  have hrole : Role.of t = .leaf .space := by rw [Role.of, (said_eq h).1]
  rw [outcome_run_cons, step, hrole]
  rfl

/-- A leaf is handed to the frames at once. -/
theorem rereads_leaf {kind : LeafKind} {text : String}
    (hatom : kind = .atom → (Piece.kindOf text).isAtom = true) :
    Rereads last (.leaf kind text) := by
  intro frames done tokens rest hform ht
  rw [Node.pieces, List.map_singleton, List.map_eq_singleton_iff] at ht
  obtain ⟨t, rfl, hsaid⟩ := ht
  have htext : t.text = text := by rw [text_of_said hsaid]; cases kind <;> rfl
  have howes : kind ≠ .atom → owesForm frames = false := by
    intro hk
    cases ho : owesForm frames with
    | false => rfl
    | true =>
      have hf := hform ho
      cases kind <;> simp_all [Node.isForm, Node.isNoise, Node.isComment]
  rw [List.singleton_append, outcome_run_cons, step, role_leaf hsaid hatom]
  cases kind with
  | atom => rw [htext]
  | comment =>
    have hstep : stepComment t.text frames = complete frames [] (.comment text) := by
      have ho := howes (by decide)
      rw [htext]
      unfold stepComment
      split
      · simp [owesForm] at ho
      · rfl
    rw [hstep]
  | _ =>
    simp only [stepTrivia, howes (by decide), htext]
    rfl

/-- A mark waits until its form is handed to it, and hands on both. -/
theorem rereads_wrap {m : Mark} {n : Node} (hm : m.fuses = false)
    (htakes : accepts m n = true) (hform : n.isForm = true) (hn : Rereads last n) :
    Rereads last (.wrap m n) := by
  intro frames done tokens rest _ ht
  -- The mark opens a frame that waits.
  have hmark : ∀ t ts, t.said = m.piece.said →
      (run .document last frames done (t :: ts)).outcome =
        (run .document last (.owing (.wrap m) t [] :: frames) done ts).outcome := by
    intro t ts hsaid
    rw [outcome_run_cons, step, role_mark hm hsaid]
    rfl
  -- The form is handed to it, and both go on to the frames below.
  have hchild : ∀ t ts, ts.map Token.said = n.pieces.map Piece.said →
      (run .document last (.owing (.wrap m) t [] :: frames) done (ts ++ rest)).outcome =
        proceed last done rest (complete frames [] (.wrap m n)) := by
    intro t ts hts
    rw [hn _ done ts rest (fun _ => hform) hts]
    simp [complete, htakes]
  rw [Node.pieces, Mark.join_of_not_fuses hm, List.map_append, List.map_eq_append_iff] at ht
  obtain ⟨ms, ts, rfl, hms, hts⟩ := ht
  rw [List.append_assoc]
  by_cases htag : ∃ tag, m = .tagged tag
  · -- The space behind a tag is skipped.
    obtain ⟨tag, rfl⟩ := htag
    simp only [Mark.pieces, List.map_cons, List.map_nil, List.map_eq_cons_iff,
      List.map_eq_nil_iff] at hms
    obtain ⟨t, _, rfl, hsaid, sp, _, rfl, hspace, rfl⟩ := hms
    rw [List.cons_append, hmark t _ hsaid, List.singleton_append, run_skip hspace, hchild t ts hts]
  · have hone : m.pieces = [m.piece] := by
      unfold Mark.pieces
      split
      · exact absurd ⟨_, rfl⟩ htag
      · rfl
    rw [hone, List.map_singleton, List.map_eq_singleton_iff] at hms
    obtain ⟨t, rfl, hsaid⟩ := hms
    rw [List.singleton_append, hmark t _ hsaid, hchild t ts hts]

/-- Metadata waits for two forms; the space between them is skipped. -/
theorem rereads_annotated {m n : Node} (hm : m.isForm = true) (hn : n.isForm = true)
    (ihm : Rereads last m) (ihn : Rereads last n) : Rereads last (.annotated m n) := by
  intro frames done tokens rest _ ht
  rw [Node.pieces, List.map_cons, List.map_append, List.map_cons, List.map_eq_cons_iff] at ht
  obtain ⟨t, us, rfl, hsaid, hus⟩ := ht
  rw [List.map_eq_append_iff] at hus
  obtain ⟨ms, vs, rfl, hms, hvs⟩ := hus
  rw [List.map_eq_cons_iff] at hvs
  obtain ⟨sp, ts, rfl, hspace, hts⟩ := hvs
  have hrole : Role.of t = .mark .metadata := by rw [Role.of, (said_eq hsaid).1]
  rw [List.cons_append, outcome_run_cons, step, hrole, List.append_assoc]
  show (run .document last (.owing .metadata t [] :: frames) done (ms ++ (sp :: ts ++ rest))).outcome
    = _
  rw [ihm _ done ms _ (fun _ => hm) hms]
  show (run .document last (.owing (.target m) t [] :: frames) done (sp :: ts ++ rest)).outcome = _
  rw [List.cons_append, run_skip hspace, ihn _ done ts rest (fun _ => hn) hts]
  rfl

/-- **Reading back.**  The tokens of a sound node are read as that node. -/
theorem run_pieces {n : Node} (h : n.Sound) : Rereads last n := by
  induction h with
  | leaf whole atom => exact rereads_leaf atom
  | @branch b cs hb _ ih =>
    intro frames done tokens rest _ ht
    rw [Node.pieces_branch hb] at ht
    obtain ⟨t, mid, close, rfl, hsaid, hmid, hclose⟩ := split_bracketed ht
    exact run_opened frames done (role_bracket hsaid hb) hmid hclose ih
  | @fused m cs hm _ ih =>
    -- The mark and the bracket of its list are one token.
    intro frames done tokens rest _ ht
    rw [Node.pieces, Node.pieces_branch rfl, Mark.join, if_pos hm] at ht
    obtain ⟨t, mid, close, rfl, hsaid, hmid, hclose⟩ := split_bracketed ht
    rw [← build_openerOf hm cs]
    refine run_opened frames done (role_fused hm hsaid) hmid ?_ ih
    rw [closing_openerOf]
    exact hclose
  | wrap hm _ haccepts hform _ ih => exact rereads_wrap hm haccepts hform ih
  | annotated hm ht _ _ ihm iht => exact rereads_annotated hm ht ihm iht

/-- Top-level nodes are read one after the other. -/
theorem run_document {rest : List Token} :
    ∀ (ns done : List Node) (tokens : List Token), (∀ n ∈ ns, n.Sound) →
      tokens.map Token.said = (Node.piecesAll ns).map Piece.said →
      (run .document last [] done (tokens ++ rest)).outcome =
        (run .document last [] (ns.reverse ++ done) rest).outcome
  | [], done, tokens, _, ht => by
      obtain rfl : tokens = [] := by simpa [Node.piecesAll] using ht
      rfl
  | n :: ns, done, tokens, hns, ht => by
      rw [Node.piecesAll, List.map_append, List.map_eq_append_iff] at ht
      obtain ⟨ts, us, rfl, hts, hus⟩ := ht
      have hn : Rereads last n := run_pieces (hns n (List.mem_cons_self ..))
      rw [List.append_assoc, hn [] done ts (us ++ rest) (by rintro ⟨⟩) hts]
      show (run .document last [] (n :: done) (us ++ rest)).outcome = _
      rw [run_document ns (n :: done) us (fun m hm => hns m (List.mem_cons_of_mem _ hm)) hus,
        List.reverse_cons, List.append_assoc, List.singleton_append]

end

end CljTidy.Reading

namespace CljTidy

/-- **Round trip of a tree.**  Sound nodes whose tokens leave each other alone are read back from
    their text. -/
theorem parse_pieces {ns : List Node} (hns : ∀ n ∈ ns, n.Sound)
    (hcuts : Piece.Cuts [] (Node.piecesAll ns)) : parse (Node.textAll ns) = .ok ns := by
  obtain ⟨tokens, htokens, hsaid⟩ := tokenize_pieces hcuts (Node.chars_piecesAll ns).symm
  obtain ⟨ts, e, rfl, hts, hrole⟩ := Reading.split_finish hsaid
  have hrun : (Reading.document (ts ++ [e])).outcome = .ok ns := by
    rw [Reading.document, Reading.run_document ns [] ts hns hts, Reading.outcome_run_cons,
      Reading.step, hrole]
    show Except.ok (ns.reverse ++ []).reverse = _
    rw [List.append_nil, List.reverse_reverse]
  simp only [parse, htokens, bind, Except.bind, hrun]

end CljTidy
