/-
  Reading node by node.

  1. **Program** — `Cursor.form` reads one node at a cursor, the comments lifted over it in front;
     `Cursor.document` reads all tokens from the first on.  The tokens may be any list: the end of
     the text may be missing, or stand in the middle.

  2. **Specification** — a node is read off the tokens up to some place behind the cursor and off no
     others (`Spells`); the nodes are comments and line breaks in front of one form, if there is
     anything but trivia or a comment at the cursor.  Or else there is a fault, and the cursor stays
     among the tokens.  All tokens are read by reading node after node (`Cursor.Passes`) until one
     of three things stops it (`Cursor.Stops`); since every node moves the cursor on, there are no
     more rounds than tokens.

  3. **The crux** (`remarks_step`) — what one token does to frames that hold nothing but comments
     and line breaks over marks: they go on holding nothing else, no token takes the last frame away
     without yielding, and what is yielded from under a frame is a form.
-/
import CljTidy.Proofs.Node.Face
import CljTidy.Proofs.Reading.Reread
import CljTidy.Reading.Cursor

namespace CljTidy.Reading

/-! ## What marks hold -/

/-- Comments and line breaks. -/
def Remarks (ns : List Node) : Prop := ∀ n ∈ ns, n.isComment = true ∨ n.isNewline = true

/-- Comments and line breaks behind each other are comments and line breaks. -/
theorem Remarks.append {xs ys : List Node} (hx : Remarks xs) (hy : Remarks ys) :
    Remarks (xs ++ ys) :=
  List.forall_mem_append.mpr ⟨hx, hy⟩

theorem remarks_nil : Remarks [] := by rintro n ⟨⟩

/-- A mark holds comments and line breaks only. -/
def Frame.Remarks : Frame → Prop
  | .opened .. => True
  | .owing _ _ held => Reading.Remarks held

theorem remarks_no_frames : ∀ f ∈ ([] : List Frame), f.Remarks := by rintro f ⟨⟩

/-- Frames go on holding comments and line breaks only, and there are some; what is yielded is one
    node behind comments and line breaks, a form if that is asked for; and faults are faults of
    reading. -/
def Move.Remarks (strict : Prop) : Move → Prop
  | .go frames => frames ≠ [] ∧ ∀ f ∈ frames, f.Remarks
  | .yield nodes =>
      ∃ lifted node, nodes = lifted ++ [node] ∧ Reading.Remarks lifted ∧
        (strict → node.isForm = true)
  | .finished => False
  | .fault error _ => ∃ token cause, error = faultAt token cause

/-- Less may be promised: what is yielded need be a form under a weaker condition only. -/
theorem Move.Remarks.imp {strict strict' : Prop} {move : Move} (h : move.Remarks strict)
    (himp : strict' → strict) : move.Remarks strict' := by
  cases move with
  | yield nodes =>
    obtain ⟨lifted, node, hnodes, hlifted, hform⟩ := h
    exact ⟨lifted, node, hnodes, hlifted, hform ∘ himp⟩
  | _ => exact h

/-! ## One token -/

/-- Marks over a form make forms, and a bracket keeps what it is handed. -/
theorem remarks_complete {frames : List Frame} (hframes : ∀ f ∈ frames, f.Remarks)
    {lifted : List Node} (hlifted : Remarks lifted) {node : Node}
    (hform : owesForm frames = true → node.isForm = true) :
    (complete frames lifted node).Remarks (frames ≠ [] ∨ node.isForm = true) := by
  induction frames generalizing lifted node with
  | nil => exact ⟨lifted, node, rfl, hlifted, fun h => h.resolve_left fun hne => hne rfl⟩
  | cons frame frames ih =>
    obtain ⟨hframe, hrest⟩ := List.forall_mem_cons.mp hframes
    cases frame with
    | opened opener token children =>
      exact ⟨List.cons_ne_nil _ _, List.forall_mem_cons.mpr ⟨trivial, hrest⟩⟩
    | owing duty token held =>
      have hboth : Remarks (held ++ lifted) := Remarks.append hframe hlifted
      -- The mark with its form is handed on; whatever is below, it is a form.
      have hmarked : ∀ n : Node, n.isForm = true →
          (complete frames (held ++ lifted) n).Remarks
            (Frame.owing duty token held :: frames ≠ [] ∨ node.isForm = true) :=
        fun n hn => (ih hrest hboth fun _ => hn).imp fun _ => .inr hn
      cases duty with
      | wrap mark =>
        rw [complete]
        split
        · exact hmarked _ rfl
        · exact ⟨_, _, rfl⟩
      | metadata => exact ⟨List.cons_ne_nil _ _, List.forall_mem_cons.mpr ⟨hboth, hrest⟩⟩
      | target metadata => exact hmarked _ rfl
      | form => exact hmarked _ (hform rfl)

section

variable {frames : List Frame} (hframes : ∀ f ∈ frames, f.Remarks)

include hframes

/-- Trivia behind a mark is passed over, and a node of its own where no frame is open. -/
theorem remarks_trivia (kind : LeafKind) (text : String) :
    (stepTrivia kind text frames).Remarks (frames ≠ []) := by
  unfold stepTrivia
  split
  · rename_i howes
    refine ⟨?_, hframes⟩
    rintro rfl
    cases howes
  · rename_i howes
    exact (remarks_complete hframes remarks_nil fun h => absurd h howes).imp .inl

/-- A comment behind a mark stays with the mark; it does not give it its form. -/
theorem remarks_comment (text : String) : (stepComment text frames).Remarks (frames ≠ []) := by
  have hcomment : Remarks [.comment text, .newline "\n"] :=
    List.forall_mem_cons.mpr ⟨.inl rfl, List.forall_mem_cons.mpr ⟨.inr rfl, remarks_nil⟩⟩
  cases frames with
  | nil => exact ⟨[], .comment text, rfl, remarks_nil, fun h => absurd rfl h⟩
  | cons frame frames =>
    obtain ⟨hframe, hrest⟩ := List.forall_mem_cons.mp hframes
    cases frame with
    | opened => exact ⟨List.cons_ne_nil _ _, List.forall_mem_cons.mpr ⟨trivial, hrest⟩⟩
    | owing =>
      exact ⟨List.cons_ne_nil _ _, List.forall_mem_cons.mpr ⟨hframe.append hcomment, hrest⟩⟩

/-- A closing bracket finishes what it fits, and that is a form; anywhere else it is a fault. -/
theorem remarks_closer (token : Token) (strict : Prop) :
    (stepCloser .form token frames).Remarks strict := by
  have hbuild : ∀ (children : List Node) (opener : Opener),
      (opener.build children).isForm = true := by
    intro children opener
    cases opener <;> rfl
  cases frames with
  | nil => exact ⟨_, _, rfl⟩
  | cons frame frames =>
    cases frame with
    | owing => exact ⟨_, _, rfl⟩
    | opened opener start children =>
      rw [stepCloser]
      split
      · exact (remarks_complete (List.forall_mem_cons.mp hframes).2 remarks_nil
          fun _ => hbuild _ _).imp fun _ => .inr (hbuild _ _)
      · exact ⟨_, _, rfl⟩

omit hframes in
/-- A single form cannot be missing: the end of the text is a fault. -/
theorem stepFinish_form (token : Token) (frames : List Frame) :
    ∃ culprit cause, stepFinish .form token frames = .fault (faultAt culprit cause) false := by
  cases frames with
  | nil => exact ⟨_, _, rfl⟩
  | cons frame frames => cases frame <;> exact ⟨_, _, rfl⟩

/-- **One token.**  Over marks there are comments and line breaks only, and a form is yielded unless
    there is nothing but trivia or a comment to yield. -/
theorem remarks_step (token : Token) :
    (step .form frames token).Remarks
      (frames ≠ [] ∨ token.kind.isTrivia = false ∧ token.kind ≠ .comment) := by
  have hatom : (complete frames [] (.atom token.text)).Remarks
      (frames ≠ [] ∨ (Node.atom token.text).isForm = true) :=
    remarks_complete hframes remarks_nil fun _ => rfl
  have hopened : ∀ (opener : Opener) (start : Token) (strict : Prop),
      (Move.go (.opened opener start [] :: frames)).Remarks strict := fun _ _ _ =>
    ⟨List.cons_ne_nil _ _, List.forall_mem_cons.mpr ⟨trivial, hframes⟩⟩
  have howing : ∀ (duty : Duty) (start : Token) (strict : Prop),
      (Move.go (.owing duty start [] :: frames)).Remarks strict := fun _ _ _ =>
    ⟨List.cons_ne_nil _ _, List.forall_mem_cons.mpr ⟨remarks_nil, hframes⟩⟩
  obtain ⟨kind, value, position⟩ := token
  cases kind with
  | whitespace | newline | comma =>
    exact (remarks_trivia hframes _ _).imp fun h => h.resolve_right fun h => by cases h.1
  | comment => exact (remarks_comment hframes _).imp fun h => h.resolve_right fun h => h.2 rfl
  -- An atom is a form, whether a mark waits for it or not.
  | string | regex | character | symbolic | word => exact hatom.imp fun _ => .inr rfl
  | close => exact remarks_closer hframes _ _
  | endOfText =>
    obtain ⟨culprit, cause, hfault⟩ :=
      stepFinish_form (⟨.endOfText, value, position⟩ : Token) frames
    rw [step, show Role.of ⟨.endOfText, value, position⟩ = .finish from rfl]
    dsimp only
    rw [hfault]
    exact ⟨culprit, cause, rfl⟩
  | openList | openVector | openMap | openSet | openFn | openConditional =>
    exact hopened _ _ _
  -- A mark has been given nothing yet.
  | metadata | quote | syntaxQuote | unquote | unquoteSplicing | deref | varQuote | discard | tag
  | namespacedMap => exact howing _ _ _

end

/-! ## The tokens of a node -/

/-- The tokens complete what the frames are open for, and the last of them yields the nodes. -/
inductive Spells : List Frame → List Token → List Node → Prop
  | last {frames : List Frame} {token : Token} {nodes : List Node} :
      step .form frames token = .yield nodes → Spells frames [token] nodes
  | more {frames frames' : List Frame} {token : Token} {tokens : List Token} {nodes : List Node} :
      step .form frames token = .go frames' → Spells frames' tokens nodes →
      Spells frames (token :: tokens) nodes

/-- Nothing is spelled by no tokens: the node yields only at one of them. -/
theorem Spells.ne_nil {frames : List Frame} {tokens : List Token} {nodes : List Node}
    (h : Spells frames tokens nodes) : tokens ≠ [] := by
  cases h <;> exact List.cons_ne_nil _ _

/-- The nodes are one node behind comments and line breaks: a form, if a frame was open or the first
    token is neither trivia nor a comment. -/
theorem Spells.shape {frames : List Frame} {token : Token} {tokens : List Token}
    {nodes : List Node} (h : Spells frames (token :: tokens) nodes)
    (hframes : ∀ f ∈ frames, f.Remarks) :
    ∃ lifted node, nodes = lifted ++ [node] ∧ Remarks lifted ∧
      (frames ≠ [] ∨ token.kind.isTrivia = false ∧ token.kind ≠ .comment → node.isForm = true) := by
  generalize hall : token :: tokens = all at h
  induction h generalizing token tokens with
  | last hstep =>
    obtain ⟨rfl, rfl⟩ := List.cons.inj hall
    have hmove := remarks_step hframes token
    rw [hstep] at hmove
    exact hmove
  | @more frames frames' first rest nodes hstep hrest ih =>
    obtain ⟨rfl, rfl⟩ := List.cons.inj hall
    have hmove := remarks_step hframes token
    rw [hstep] at hmove
    obtain ⟨hne, hframes'⟩ := hmove
    obtain ⟨second, others, rfl⟩ := List.exists_cons_of_ne_nil hrest.ne_nil
    obtain ⟨lifted, node, hnodes, hlifted, hform⟩ := ih hframes' rfl
    exact ⟨lifted, node, hnodes, hlifted, fun _ => hform (.inl hne)⟩

/-! ## Runs -/

/-- How a run came out: the nodes or a fault, and the tokens that were not passed. -/
def Result.ending (r : Result) : Except SyntaxError (List Node) × List Token := (r.outcome, r.rest)

/-- That a token is kept as a leaf shows in the tokens passed, not in the ending. -/
@[simp] theorem ending_addLeaf (isLeaf : Bool) (token : Token) (r : Result) :
    (r.addLeaf isLeaf token).ending = r.ending := by
  unfold Result.addLeaf
  split <;> rfl

section

variable (last : Token) {frames : List Frame} (done : List Node) {token : Token}
  (tokens : List Token)

/-- A token that leaves frames open is passed. -/
theorem ending_go {scope : Scope} {frames' : List Frame}
    (h : step scope frames token = .go frames') :
    (run scope last frames done (token :: tokens)).ending =
      (run scope last frames' done tokens).ending := by
  rw [run, h]
  exact ending_addLeaf _ _ _

/-- A single form ends the run: what is behind the token is left. -/
theorem ending_yield_form {nodes : List Node} (h : step .form frames token = .yield nodes) :
    (run .form last frames done (token :: tokens)).ending = (.ok nodes, tokens) := by
  rw [run, h]
  exact ending_addLeaf _ _ _

/-- A form of a document is put with those before it, and reading starts over. -/
theorem ending_yield_document {nodes : List Node}
    (h : step .document frames token = .yield nodes) :
    (run .document last frames done (token :: tokens)).ending =
      (run .document last [] (nodes.reverse ++ done) tokens).ending := by
  rw [run, h]
  exact ending_addLeaf _ _ _

/-- A fault is found in front of a token or behind it. -/
theorem ending_fault {scope : Scope} {error : SyntaxError} {behind : Bool}
    (h : step scope frames token = .fault error behind) :
    (run scope last frames done (token :: tokens)).ending =
      (.error error, if behind then tokens else token :: tokens) := by
  rw [run, h]
  cases behind with
  | true => exact ending_addLeaf _ _ _
  | false => rfl

end

/-- The tokens of a node are read as that node, whatever is behind them. -/
theorem Spells.run {frames : List Frame} {used : List Token} {nodes : List Node}
    (h : Spells frames used nodes) (last : Token) (done : List Node) (rest : List Token) :
    (run .form last frames done (used ++ rest)).ending = (.ok nodes, rest) := by
  induction h with
  | last hstep => exact ending_yield_form last done rest hstep
  | more hstep _ ih => exact (ending_go last done _ hstep).trans ih

/-- How reading a single node comes out: the tokens of the node are passed, or there is a fault,
    with the tokens from somewhere on not passed. -/
inductive Comes (frames : List Frame) (tokens : List Token) :
    Except SyntaxError (List Node) × List Token → Prop
  | node {used rest : List Token} {nodes : List Node} : tokens = used ++ rest →
      Spells frames used nodes → Comes frames tokens (.ok nodes, rest)
  | fault {rest : List Token} (token : Token) (cause : ReadingFault) : rest <:+ tokens →
      Comes frames tokens (.error (faultAt token cause), rest)

/-- **A run over one node.**  Induction over the tokens. -/
theorem comes_run (last : Token) (done : List Node) {frames : List Frame}
    (hframes : ∀ f ∈ frames, f.Remarks) (tokens : List Token) :
    Comes frames tokens (run .form last frames done tokens).ending := by
  induction tokens generalizing frames with
  -- The end of the text, while something is missing.
  | nil =>
    obtain ⟨culprit, cause, hfault⟩ := stepFinish_form last frames
    rw [run, hfault]
    exact .fault culprit cause (List.suffix_refl [])
  | cons token tokens ih =>
    have hmove := remarks_step hframes token
    cases hstep : step .form frames token with
    | go frames' =>
      rw [hstep] at hmove
      rw [ending_go last done tokens hstep]
      have hrest := ih hmove.2
      generalize (run .form last frames' done tokens).ending = ending at hrest ⊢
      cases hrest with
      | node htokens hspells => exact .node (congrArg (token :: ·) htokens) (.more hstep hspells)
      | fault culprit cause hrest =>
        exact .fault culprit cause (hrest.trans (List.suffix_cons token tokens))
    -- The node is complete with this token.
    | yield nodes =>
      rw [ending_yield_form last done tokens hstep]
      exact .node (show token :: tokens = [token] ++ tokens from rfl) (.last hstep)
    | finished =>
      rw [hstep] at hmove
      exact hmove.elim
    | fault error behind =>
      rw [hstep] at hmove
      obtain ⟨culprit, cause, rfl⟩ := hmove
      rw [ending_fault last done tokens hstep]
      -- The token may have been passed or not.
      refine .fault culprit cause ?_
      cases behind with
      | true => exact List.suffix_cons token tokens
      | false => exact List.suffix_refl _

/-! ## All tokens, node by node -/

/-- Under an open frame the scope does not matter; otherwise it matters at a closing bracket and at
    the end. -/
theorem step_scope {frames : List Frame} {token : Token}
    (h : frames ≠ [] ∨ token.kind ≠ .close ∧ token.kind ≠ .endOfText) :
    step .document frames token = step .form frames token := by
  cases frames with
  | cons frame frames =>
    have hcloser : stepCloser .document token (frame :: frames) =
        stepCloser .form token (frame :: frames) := by cases frame <;> rfl
    have hfinish : stepFinish .document token (frame :: frames) =
        stepFinish .form token (frame :: frames) := by cases frame <;> rfl
    unfold step
    rw [hcloser, hfinish]
  | nil =>
    obtain ⟨hclose, hend⟩ := h.resolve_left fun h => h rfl
    obtain ⟨kind, value, position⟩ := token
    cases kind <;> first | rfl | exact absurd rfl hclose | exact absurd rfl hend

/-- Going on after a node, or ending with its fault. -/
def goOn (last : Token) (done : List Node) :
    Except SyntaxError (List Node) × List Token → Except SyntaxError (List Node) × List Token
  | (.ok nodes, rest) => (run .document last [] (nodes.reverse ++ done) rest).ending
  | (.error e, rest) => (.error e, rest)

section

variable (last : Token) (done : List Node) {frames : List Frame}
  (hframes : ∀ f ∈ frames, f.Remarks) {token : Token}
  (h : frames ≠ [] ∨ token.kind ≠ .close ∧ token.kind ≠ .endOfText)

include hframes h

/-- One token, if frames that stay open come to the same over the tokens behind it. -/
theorem ending_document_cons {tokens : List Token}
    (hgo : ∀ frames' : List Frame, frames' ≠ [] → (∀ f ∈ frames', f.Remarks) →
      (run .document last frames' done tokens).ending =
        goOn last done (run .form last frames' [] tokens).ending) :
    (run .document last frames done (token :: tokens)).ending =
      goOn last done (run .form last frames [] (token :: tokens)).ending := by
  have hscope := step_scope h
  have hmove := remarks_step hframes token
  cases hstep : step .form frames token with
  | go frames' =>
    rw [hstep] at hscope hmove
    rw [ending_go last done tokens hscope, ending_go last [] tokens hstep]
    exact hgo frames' hmove.1 hmove.2
  | yield nodes =>
    rw [hstep] at hscope
    rw [ending_yield_document last done tokens hscope, ending_yield_form last [] tokens hstep, goOn]
  | finished =>
    rw [hstep] at hmove
    exact hmove.elim
  | fault error behind =>
    rw [hstep] at hscope
    rw [ending_fault last done tokens hscope, ending_fault last [] tokens hstep, goOn]

/-- **Node by node.**  Reading all tokens is reading one node and going on behind it, unless there
    is a closing bracket or the end. -/
theorem ending_document (tokens : List Token) :
    (run .document last frames done (token :: tokens)).ending =
      goOn last done (run .form last frames [] (token :: tokens)).ending := by
  induction tokens generalizing frames token with
  | nil =>
    refine ending_document_cons last done hframes h fun frames' hne _ => ?_
    -- A frame is open at the end of the text, which is the same fault either way.
    obtain ⟨frame, frames', rfl⟩ := List.exists_cons_of_ne_nil hne
    cases frame <;> rfl
  | cons next tokens ih =>
    exact ending_document_cons last done hframes h fun frames' hne hframes' =>
      ih hframes' (.inl hne)

end

/-! ## Cursors -/

namespace Cursor

/-- The tokens not passed. -/
def ahead (c : Cursor) : List Token := c.tokens.drop c.position

/-- Ahead is nothing, and the cursor sees the end of the text, or the token it sees and others. -/
theorem ahead_cases (c : Cursor) :
    c.ahead = [] ∧ c.current = endOf c.tokens ∨ ∃ tokens, c.ahead = c.current :: tokens := by
  have hfirst : c.current = c.ahead.head?.getD (endOf c.tokens) := by
    rw [ahead, List.head?_drop]
    rfl
  cases hahead : c.ahead with
  | nil =>
    rw [hahead] at hfirst
    exact .inl ⟨rfl, hfirst⟩
  | cons token tokens =>
    rw [hahead] at hfirst
    exact .inr ⟨tokens, congrArg (· :: tokens) hfirst.symm⟩

theorem current_of_ahead {c : Cursor} {token : Token} {tokens : List Token}
    (h : c.ahead = token :: tokens) : c.current = token := by
  obtain ⟨hnil, -⟩ | ⟨others, hothers⟩ := c.ahead_cases
  · rw [hnil] at h
    cases h
  · exact (List.cons.inj (hothers.symm.trans h)).1

/-- Where a cursor is, told by the tokens behind it. -/
theorem resume_of_suffix {c : Cursor} {rest : List Token} (h : rest <:+ c.ahead) :
    (c.resume rest).ahead = rest ∧ (c.resume rest).position ≤ c.tokens.length := by
  obtain ⟨passed, hpassed⟩ := h
  have hall : c.tokens = c.tokens.take c.position ++ passed ++ rest := by
    rw [List.append_assoc, hpassed]
    exact (List.take_append_drop _ _).symm
  refine ⟨?_, Nat.sub_le _ _⟩
  have hplace : c.tokens.length - rest.length = (c.tokens.take c.position ++ passed).length := by
    rw [congrArg List.length hall, List.length_append]
    omega
  show c.tokens.drop (c.tokens.length - rest.length) = rest
  rw [hplace]
  exact (congrArg (List.drop _) hall).trans List.drop_left

/-- A cursor that has not passed the end moves by the tokens that it passes. -/
theorem position_resume {c : Cursor} (hplace : c.position ≤ c.tokens.length)
    {passed rest : List Token} (h : c.ahead = passed ++ rest) :
    (c.resume rest).position = c.position + passed.length := by
  have hlength : c.tokens.length - c.position = passed.length + rest.length := by
    rw [← List.length_drop, ← List.length_append]
    exact congrArg List.length h
  show c.tokens.length - rest.length = _
  omega

/-- A form at a cursor, told by the run over the tokens ahead. -/
theorem form_eq_ending (c : Cursor) :
    c.form = ((run .form (endOf c.tokens) [] [] c.ahead).ending.1,
      c.resume (run .form (endOf c.tokens) [] [] c.ahead).ending.2) := rfl

/-- The nodes that are spelled ahead are read, and the cursor passes their tokens. -/
theorem form_of_spells {c : Cursor} {used rest : List Token} {nodes : List Node}
    (hahead : c.ahead = used ++ rest) (h : Spells [] used nodes) :
    c.form = (.ok nodes, c.resume rest) := by
  rw [form_eq_ending, hahead, h.run]

/-! ## One node at a cursor -/

/-- What reading a node at `c` promises if it gives the nodes and the cursor `d`. -/
structure Reads (c : Cursor) (nodes : List Node) (d : Cursor) : Prop where
  tokens : d.tokens = c.tokens
  onward : c.position < d.position
  within : d.position ≤ c.tokens.length
  ne_nil : nodes ≠ []
  shape : c.current.kind.isTrivia = false → c.current.kind ≠ .comment →
    ∃ lifted node, nodes = lifted ++ [node] ∧ Remarks lifted ∧
      node.isNoise = false ∧ node.isComment = false
  /-- Only the tokens that are passed matter. -/
  locally : ∀ others : List Token,
    (∀ i, c.position ≤ i → i < d.position → others[i]? = c.tokens[i]?) →
      form ⟨others, c.position⟩ = (.ok nodes, ⟨others, d.position⟩)

/-- What reading a node at `c` promises: nodes, or a fault and a cursor among the tokens. -/
inductive Ends (c : Cursor) : Except SyntaxError (List Node) × Cursor → Prop
  | nodes {nodes : List Node} {d : Cursor} : c.Reads nodes d → Ends c (.ok nodes, d)
  | fault (token : Token) (cause : ReadingFault) {d : Cursor} : d.tokens = c.tokens →
      c.position ≤ d.position → d.position ≤ c.tokens.length →
      Ends c (.error (faultAt token cause), d)

/-- Tokens that agree on a stretch have the same tokens there. -/
theorem drop_eq_append {tokens others used rest : List Token} {position : Nat}
    (hused : tokens.drop position = used ++ rest)
    (hsame : ∀ i, position ≤ i → i < position + used.length → others[i]? = tokens[i]?) :
    ∃ beyond, others.drop position = used ++ beyond := by
  refine ⟨(others.drop position).drop used.length, ?_⟩
  have htake : (others.drop position).take used.length = used := by
    refine List.ext_getElem? fun i => ?_
    rw [List.getElem?_take]
    split
    · rename_i hi
      rw [List.getElem?_drop, hsame _ (by omega) (by omega), ← List.getElem?_drop, hused,
        List.getElem?_append_left hi]
    · rename_i hi
      exact (List.getElem?_eq_none (by omega)).symm
  exact (List.take_append_drop _ _).symm.trans (congrArg (· ++ _) htake)

/-- What is spelled at a cursor is read with all that reading promises. -/
theorem reads_of_spells {c : Cursor} (hplace : c.position ≤ c.tokens.length)
    {used rest : List Token} {nodes : List Node} (hahead : c.ahead = used ++ rest)
    (hspells : Spells [] used nodes) : c.Reads nodes (c.resume rest) := by
  have hposition := position_resume hplace hahead
  obtain ⟨token, tokens, rfl⟩ := List.exists_cons_of_ne_nil hspells.ne_nil
  obtain ⟨lifted, node, hnodes, hlifted, hform⟩ := hspells.shape remarks_no_frames
  have hcurrent : c.current = token := current_of_ahead hahead
  refine
    { tokens := rfl
      onward := by rw [hposition, List.length_cons]; omega
      within := Nat.sub_le _ _
      ne_nil := by rw [hnodes]; simp
      shape := fun htrivia hcomment => ?_
      locally := fun others hsame => ?_ }
  · rw [hcurrent] at htrivia hcomment
    exact ⟨lifted, node, hnodes, hlifted, Node.isForm_iff.mp (hform (.inr ⟨htrivia, hcomment⟩))⟩
  · rw [hposition] at hsame ⊢
    obtain ⟨beyond, hbeyond⟩ := drop_eq_append hahead hsame
    have hahead' : (Cursor.mk others c.position).ahead = token :: tokens ++ beyond := hbeyond
    have hplace' : c.position ≤ others.length := by
      have hlength := congrArg List.length hbeyond
      rw [List.length_drop, List.length_append, List.length_cons] at hlength
      omega
    rw [form_of_spells hahead' hspells]
    exact congrArg (fun p => (_, Cursor.mk others p)) (position_resume hplace' hahead')

/-- **One node.**  The run over the tokens ahead, told at the cursor. -/
theorem ends_form {c : Cursor} (hplace : c.position ≤ c.tokens.length) : c.Ends c.form := by
  have hcomes := comes_run (endOf c.tokens) [] remarks_no_frames c.ahead
  rw [form_eq_ending]
  generalize (run .form (endOf c.tokens) [] [] c.ahead).ending = ending at hcomes ⊢
  cases hcomes with
  | node hahead hspells => exact .nodes (reads_of_spells hplace hahead hspells)
  | fault token cause hrest =>
    obtain ⟨passed, hpassed⟩ := hrest
    have hposition := position_resume hplace hpassed.symm
    exact .fault token cause rfl (hposition ▸ Nat.le_add_right _ _) (Nat.sub_le _ _)

/-! ## Rounds -/

/-- Reading node after node from a cursor on: the number of rounds, the nodes, the cursor behind. -/
inductive Passes : Nat → Cursor → List Node → Cursor → Prop
  | stay (c : Cursor) : Passes 0 c [] c
  | node {rounds : Nat} {c d stop : Cursor} {nodes more : List Node} :
      c.current.kind ≠ .close → c.current.kind ≠ .endOfText → c.form = (.ok nodes, d) →
      Passes rounds d more stop → Passes (rounds + 1) c (nodes ++ more) stop

/-- How reading all tokens comes out at a cursor where it stops, with the nodes read so far. -/
inductive Stops (nodes : List Node) (c : Cursor) :
    Except SyntaxError (List Node) × Cursor → Prop
  | finish : c.current.kind = .endOfText → Stops nodes c (.ok nodes, c)
  | closer : c.current.kind = .close →
      Stops nodes c (.error (faultAt c.current (.unmatchedCloser c.current.value)), c)
  | fault {error : SyntaxError} {d : Cursor} : c.current.kind ≠ .close →
      c.current.kind ≠ .endOfText → c.form = (.error error, d) → Stops nodes c (.error error, d)

/-- The outcome and the cursor of a run over all tokens from a cursor on, with nodes read
    already. -/
def goesOn (c : Cursor) (done : List Node) : Except SyntaxError (List Node) × Cursor :=
  ((run .document (endOf c.tokens) [] done c.ahead).ending.1,
    c.resume (run .document (endOf c.tokens) [] done c.ahead).ending.2)

theorem resume_ahead {c : Cursor} (hplace : c.position ≤ c.tokens.length) :
    c.resume c.ahead = c := by
  have hposition := position_resume hplace (List.nil_append c.ahead).symm
  rw [List.length_nil, Nat.add_zero] at hposition
  exact congrArg (Cursor.mk c.tokens) hposition

/-! One round: at a closing bracket reading stops with a fault, at the end with the nodes; otherwise
one node is read, and reading goes on behind it unless there is a fault. -/

theorem goesOn_closer {c : Cursor} (hplace : c.position ≤ c.tokens.length) (done : List Node)
    (hclose : c.current.kind = .close) :
    c.goesOn done = (.error (faultAt c.current (.unmatchedCloser c.current.value)), c) := by
  obtain ⟨-, hcurrent⟩ | ⟨tokens, hahead⟩ := c.ahead_cases
  · rw [hcurrent] at hclose
    cases hclose
  · have hstep : step .document [] c.current =
        .fault (faultAt c.current (.unmatchedCloser c.current.value)) false := by
      simp only [step, Role.of, hclose, stepCloser]
    have hhere : c.resume (c.current :: tokens) = c := hahead ▸ resume_ahead hplace
    rw [goesOn, hahead, ending_fault _ _ _ hstep]
    exact congrArg (Prod.mk _) hhere

/-- At the end of the text the nodes come back in the order they were read. -/
theorem goesOn_end {c : Cursor} (hplace : c.position ≤ c.tokens.length) (done : List Node)
    (hend : c.current.kind = .endOfText) : c.goesOn done = (.ok done.reverse, c) := by
  have hhere := resume_ahead hplace
  obtain ⟨hahead, -⟩ | ⟨tokens, hahead⟩ := c.ahead_cases
  · rw [hahead] at hhere
    rw [goesOn, hahead]
    exact congrArg (Prod.mk _) hhere
  · have hstep : step .document [] c.current = .finished := by
      simp only [step, Role.of, hend, stepFinish]
    rw [hahead] at hhere
    rw [goesOn, hahead, run, hstep]
    exact congrArg (Prod.mk _) hhere

/-- Anywhere else one node is read, and reading goes on where it ends. -/
theorem goesOn_form {c : Cursor} (done : List Node) (hclose : c.current.kind ≠ .close)
    (hend : c.current.kind ≠ .endOfText) :
    c.goesOn done =
      match c.form with
      | (.ok nodes, d) => d.goesOn (nodes.reverse ++ done)
      | (.error e, d) => (.error e, d) := by
  obtain ⟨-, hcurrent⟩ | ⟨tokens, hahead⟩ := c.ahead_cases
  · exact absurd (congrArg Token.kind hcurrent) hend
  · have hcomes := comes_run (endOf c.tokens) [] remarks_no_frames c.ahead
    have hdocument := ending_document (endOf c.tokens) done remarks_no_frames
      (.inr ⟨hclose, hend⟩) tokens
    rw [← hahead] at hdocument
    rw [goesOn, hdocument, form_eq_ending]
    generalize (run .form (endOf c.tokens) [] [] c.ahead).ending = ending at hcomes ⊢
    cases hcomes with
    | @node used rest nodes hused _ =>
      have hrest := (resume_of_suffix (hused ▸ List.suffix_append used rest)).1
      simp only [goesOn, goOn, hrest]
      rfl
    | fault => rfl

/-- **All rounds.**  Induction on the number of tokens ahead: every node passes at least one. -/
theorem passes_goesOn {c : Cursor} (hplace : c.position ≤ c.tokens.length) (done : List Node) :
    ∃ rounds nodes stop, rounds ≤ c.tokens.length - c.position ∧ Passes rounds c nodes stop ∧
      Stops (done.reverse ++ nodes) stop (c.goesOn done) := by
  induction hleft : c.tokens.length - c.position using Nat.strongRecOn
    generalizing c done with
  | _ left ih =>
    -- Reading may stop right here.
    have hhere (hstops : Stops done.reverse c (c.goesOn done)) :
        ∃ rounds nodes stop, rounds ≤ left ∧ Passes rounds c nodes stop ∧
          Stops (done.reverse ++ nodes) stop (c.goesOn done) :=
      ⟨0, [], c, Nat.zero_le left, .stay c, (List.append_nil done.reverse).symm ▸ hstops⟩
    by_cases hclose : c.current.kind = .close
    · exact hhere (goesOn_closer hplace done hclose ▸ .closer hclose)
    by_cases hend : c.current.kind = .endOfText
    · exact hhere (goesOn_end hplace done hend ▸ .finish hend)
    have hround := goesOn_form done hclose hend
    have hends := ends_form hplace
    generalize hform : c.form = ending at hround hends
    cases hends with
    | fault => exact hhere (hround ▸ .fault hclose hend hform)
    | @nodes nodes d hreads =>
      have honward := hreads.onward
      have hwithin := hreads.within
      have hless : d.tokens.length - d.position < left := by rw [hreads.tokens]; omega
      obtain ⟨rounds, more, stop, hrounds, hpasses, hstops⟩ :=
        ih _ hless (hreads.tokens ▸ hwithin) (nodes.reverse ++ done) rfl
      refine ⟨rounds + 1, nodes ++ more, stop, by omega, .node hclose hend hform hpasses, ?_⟩
      rw [hround]
      simpa using hstops

/-- **Progress.**  At every place in front of the end reading a node either gives nodes and passes
    some tokens, looking at no others, or gives a fault and stays among the tokens; and reading all
    tokens takes no more such rounds than there are tokens. -/
theorem form_progress (tokens : List Token) :
    (∀ position, position < tokens.length →
      Ends ⟨tokens, position⟩ (form ⟨tokens, position⟩)) ∧
    ∀ start, ∃ rounds nodes stop, rounds ≤ tokens.length ∧
      Passes rounds ⟨tokens, 0⟩ nodes stop ∧ Stops nodes stop (document ⟨tokens, start⟩) := by
  constructor
  · intro position hposition
    exact ends_form (Nat.le_of_lt hposition)
  · intro start
    obtain ⟨rounds, nodes, stop, hrounds, hpasses, hstops⟩ :=
      passes_goesOn (c := ⟨tokens, 0⟩) (Nat.zero_le _) []
    exact ⟨rounds, nodes, stop, hrounds, hpasses, hstops⟩

/-- A quote in front of a comment and a word, with the end of the text in the middle. -/
theorem form_progress_quoted :
    let tokens : List Token :=
      [⟨.quote, some "'", {}⟩, ⟨.comment, some "; why", {}⟩, ⟨.word, some "x", {}⟩,
        ⟨.endOfText, none, {}⟩, ⟨.close, some ")", {}⟩]
    0 < tokens.length ∧
      Reads ⟨tokens, 0⟩ [.comment "; why", .newline "\n", .wrap .quote (.atom "x")]
        ⟨tokens, 3⟩ := by
  intro tokens
  have hplace : 0 < tokens.length := by decide
  have hends := (form_progress tokens).1 0 hplace
  have hform : form ⟨tokens, 0⟩ =
      (.ok [.comment "; why", .newline "\n", .wrap .quote (.atom "x")], ⟨tokens, 3⟩) := rfl
  rw [hform] at hends
  cases hends with
  | nodes hreads => exact ⟨hplace, hreads⟩

end Cursor

end CljTidy.Reading
