/-
  Reading by recursive descent.

  1. **Program** — `run` keeps a stack of frames, and what is read at a cursor (`Cursor.form`,
     `Cursor.target`, `Cursor.collection`, `Cursor.document`) is what such a run comes to.

  2. **Specification** — the same pieces read by functions that call each other, one for each kind
     of piece: a form, the target of a mark, the children of a bracket (`form`, `target`,
     `children`), and forms up to the end of the text (`document`).  What is open is nowhere written
     down; it is in the calls that have not returned.

  3. **The crux** — the frames are these calls.  A run over a piece with frames open is the call for
     the piece, and then the run with the piece handed to the frames: `complete` does what the
     caller does with the answer.  There is one lemma for each function, from the calls it makes
     (`runs_form`, `runs_target`, `runs_children`); induction on the number of tokens joins them.
-/
import CljTidy.Proofs.Reading.Progress

namespace CljTidy.Reading

namespace Descent

/-! ## The reader -/

/-- What was read at the front of some tokens, and the tokens behind it: there are fewer. -/
structure Piece (α : Type) (tokens : List Token) where
  value : α
  rest : List Token
  shorter : rest.length < tokens.length

/-- A piece, or a fault and the tokens that were not passed. -/
abbrev Answer (α : Type) (tokens : List Token) := Except (SyntaxError × List Token) (Piece α tokens)

/-- A piece in front of which some tokens were passed, with another value. -/
def Piece.behind {α β : Type} {inner outer : List Token} (p : Piece α inner)
    (h : inner.length ≤ outer.length) (f : α → β) : Piece β outer :=
  ⟨f p.value, p.rest, Nat.lt_of_lt_of_le p.shorter h⟩

/-- A node with the comments lifted over it. -/
abbrev Lifted := List Node × Node

mutual

/-- Reads one node.  `last` stands for the end of the token list. -/
def form (last : Token) : (tokens : List Token) → Answer Lifted tokens
  | [] => .error (faultAt last (.unexpectedEnd last.kind), [])
  | token :: tokens =>
      match Role.of token with
      | .leaf kind => .ok ⟨([], .leaf kind token.text), tokens, Nat.lt_succ_self _⟩
      | .opener opener => do
          let p ← children last opener token tokens
          return p.behind (Nat.le_succ _) fun nodes => ([], opener.build nodes)
      | .mark duty => do
          let p ← target last token tokens
          let (lifted, node) := p.value
          match duty with
          | .wrap mark =>
              if accepts mark node then
                return p.behind (Nat.le_succ _) fun _ => (lifted, .wrap mark node)
              else .error (faultAt token .namespaceWithoutMap, p.rest)
          | .metadata => do
              let q ← target last token p.rest
              return q.behind (Nat.le_of_lt (Nat.lt_succ_of_lt p.shorter)) fun (more, node') =>
                (lifted ++ more, .annotated node node')
          | .target metadata =>
              return p.behind (Nat.le_succ _) fun _ => (lifted, .annotated metadata node)
          | .form => return p.behind (Nat.le_succ _) fun _ => (lifted, node)
      | .closer => .error (faultAt token (.unexpectedCloser token.value), token :: tokens)
      | .finish => .error (faultAt token (.unexpectedEnd token.kind), token :: tokens)
termination_by tokens => (tokens.length, 0)
decreasing_by
  · exact Prod.Lex.left _ _ (Nat.lt_succ_self _)
  · exact Prod.Lex.left _ _ (Nat.lt_succ_self _)
  · exact Prod.Lex.left _ _ (Nat.lt_succ_of_lt p.shorter)

/-- Reads the form that a mark takes: trivia is skipped, comments are lifted over it. -/
def target (last mark : Token) : (tokens : List Token) → Answer Lifted tokens
  | [] => .error (faultAt mark (.danglingMark mark.value), [])
  | token :: tokens =>
      match Role.of token with
      | .leaf .comment => do
          let p ← target last mark tokens
          return p.behind (Nat.le_succ _) fun (lifted, node) =>
            (.comment token.text :: .newline "\n" :: lifted, node)
      | .leaf .space | .leaf .newline | .leaf .comma => do
          let p ← target last mark tokens
          return p.behind (Nat.le_succ _) id
      | .closer | .finish => .error (faultAt mark (.danglingMark mark.value), token :: tokens)
      | .leaf .atom | .opener _ | .mark _ => form last (token :: tokens)
termination_by tokens => (tokens.length, 1)

/-- Reads the children of a bracket and its closing bracket. -/
def children (last : Token) (opener : Opener) (start : Token) :
    (tokens : List Token) → Answer (List Node) tokens
  | [] => .error (faultAt start (.unclosed opener.opening), [])
  | token :: tokens =>
      match Role.of token with
      | .finish => .error (faultAt start (.unclosed opener.opening), token :: tokens)
      | .closer =>
          if token.value = some opener.closing then .ok ⟨[], tokens, Nat.lt_succ_self _⟩
          else
            .error (faultAt token (.mismatchedCloser token.value opener.closing opener.opening
              start.position.line), token :: tokens)
      | .leaf _ | .opener _ | .mark _ => do
          let p ← form last (token :: tokens)
          let q ← children last opener start p.rest
          return q.behind (Nat.le_of_lt p.shorter) fun nodes => p.value.1 ++ p.value.2 :: nodes
termination_by tokens => (tokens.length, 1)
decreasing_by
  all_goals first
    | exact Prod.Lex.right _ Nat.zero_lt_one
    | exact Prod.Lex.left _ _ p.shorter

end

/-- Reads nodes up to the end of the text, which is not passed. -/
def document (last : Token) :
    List Token → Except (SyntaxError × List Token) (List Node × List Token)
  | [] => .ok ([], [])
  | token :: tokens =>
      match Role.of token with
      | .finish => .ok ([], token :: tokens)
      | .closer => .error (faultAt token (.unmatchedCloser token.value), token :: tokens)
      | .leaf _ | .opener _ | .mark _ => do
          let p ← form last (token :: tokens)
          let (nodes, rest) ← document last p.rest
          return (p.value.1 ++ p.value.2 :: nodes, rest)
termination_by tokens => tokens.length
decreasing_by all_goals exact p.shorter

/-! ## The frames are the calls -/

section

variable (last : Token) (done : List Node)

/-- How a run ends that goes on with a move, over the tokens behind. -/
def after (rest : List Token) : Move → Except SyntaxError (List Node) × List Token
  | .go frames => (run .form last frames done rest).ending
  | .yield nodes => (.ok nodes, rest)
  | .finished => (.ok done.reverse, rest)
  | .fault error _ => (.error error, rest)

/-- How a run ends that goes on with what was read. -/
def handOn {α : Type} {tokens : List Token} (use : α → Move) :
    Answer α tokens → Except SyntaxError (List Node) × List Token
  | .ok p => after last done p.rest (use p.value)
  | .error (error, rest) => (.error error, rest)

/-- What is read is a node, and not the end of what is open. -/
def Asks (frames : List Frame) : List Token → Prop
  | [] => frames = []
  | token :: _ =>
      match Role.of token with
      | .closer | .finish => frames = []
      | .leaf .atom | .opener _ | .mark _ => True
      | .leaf _ => owesForm frames = false

/-- A run over a form. -/
def FormRuns (tokens : List Token) : Prop :=
  ∀ frames, Asks frames tokens →
    (run .form last frames done tokens).ending =
      handOn last done (fun (lifted, node) => complete frames lifted node) (form last tokens)

/-- A run over the target of a mark, with some comments lifted over it already. -/
def TargetRuns (mark : Token) (tokens : List Token) : Prop :=
  ∀ duty held frames,
    (run .form last (.owing duty mark held :: frames) done tokens).ending =
      handOn last done
        (fun (lifted, node) => complete (.owing duty mark held :: frames) lifted node)
        (target last mark tokens)

/-- A run over the children of a bracket, with some read already, last one first. -/
def ChildrenRuns (opener : Opener) (start : Token) (tokens : List Token) : Prop :=
  ∀ cs frames,
    (run .form last (.opened opener start cs :: frames) done tokens).ending =
      handOn last done (fun nodes => complete frames [] (opener.build (cs.reverse ++ nodes)))
        (children last opener start tokens)

end

section

variable {last : Token} {done : List Node}

/-- What handing on a node may lead to: not to the end of the text, and to a fault only behind the
    node. -/
def Proceeds : Move → Prop
  | .go _ => True
  | .yield _ => True
  | .finished => False
  | .fault _ behind => behind = true

theorem proceeds_complete (frames : List Frame) (lifted : List Node) (node : Node) :
    Proceeds (complete frames lifted node) := by
  induction frames generalizing lifted node with
  | nil => trivial
  | cons frame frames ih =>
    cases frame with
    | opened opener token children => trivial
    | owing duty token held =>
      cases duty with
      | wrap mark =>
        rw [complete]
        split
        · exact ih _ _
        · rfl
      | metadata => trivial
      | target metadata => exact ih _ _
      | form => exact ih _ _

/-- A token that finishes a node hands it to the frames. -/
theorem ending_complete {frames frames' : List Frame} {token : Token} {tokens : List Token}
    {lifted : List Node} {node : Node}
    (h : step .form frames token = complete frames' lifted node) :
    (run .form last frames done (token :: tokens)).ending =
      after last done tokens (complete frames' lifted node) := by
  have hproceeds := proceeds_complete frames' lifted node
  generalize complete frames' lifted node = move at h hproceeds ⊢
  cases move with
  | go frames'' => exact ending_go last done tokens h
  | yield nodes => exact ending_yield_form last done tokens h
  | finished => exact hproceeds.elim
  | fault error behind =>
    rw [ending_fault last done tokens h, show behind = true from hproceeds]
    rfl

/-- It does not matter which comments were lifted first. -/
theorem complete_lifted (duty : Duty) (mark : Token) (held more lifted : List Node)
    (frames : List Frame) (node : Node) :
    complete (.owing duty mark (held ++ more) :: frames) lifted node =
      complete (.owing duty mark held :: frames) (more ++ lifted) node := by
  cases duty <;> simp only [complete, List.append_assoc]

/-- A leaf is finished at once, unless a mark would skip or lift it. -/
theorem step_leaf {frames : List Frame} {token : Token} {kind : LeafKind}
    (hrole : Role.of token = .leaf kind) (h : kind = .atom ∨ owesForm frames = false) :
    step .form frames token = complete frames [] (.leaf kind token.text) := by
  rw [step, hrole]
  cases kind with
  | atom => rfl
  | comment =>
    have howes : owesForm frames = false := h.resolve_left fun h => by cases h
    cases frames with
    | nil => rfl
    | cons frame frames =>
      cases frame with
      | opened opener token children => rfl
      | owing duty token held => cases howes
  | space | newline | comma =>
    have howes : owesForm frames = false := h.resolve_left fun h => by cases h
    exact if_neg (ne_true_of_eq_false howes)

/-- A mark is open until its target is read; metadata then waits for the target of both. -/
theorem runs_mark {token : Token} {tokens : List Token} {duty : Duty}
    (hrole : Role.of token = .mark duty)
    (htarget : ∀ mark rest, rest.length < (token :: tokens).length → TargetRuns last done mark rest)
    (frames : List Frame) :
    (run .form last frames done (token :: tokens)).ending =
      handOn last done (fun (lifted, node) => complete frames lifted node)
        (form last (token :: tokens)) := by
  have hstep : step .form frames token = .go (.owing duty token [] :: frames) := by
    rw [step, hrole]
  rw [ending_go last done tokens hstep,
    htarget token tokens (Nat.lt_succ_self _) duty [] frames, form, hrole]
  dsimp only
  cases target last token tokens with
  | error fault => rfl
  | ok p =>
    obtain ⟨⟨lifted, node⟩, rest, hrest⟩ := p
    cases duty with
    | wrap mark =>
      show after last done rest
          (complete (.owing (.wrap mark) token [] :: frames) lifted node) =
        handOn last done _ (if accepts mark node then _ else _)
      rw [complete]
      split <;> rfl
    | metadata =>
      -- The target stands behind the metadata; what was lifted over both is in front of it.
      have hbehind : rest.length < (token :: tokens).length := Nat.lt_succ_of_lt hrest
      show (run .form last (.owing (.target node) token lifted :: frames) done rest).ending =
        handOn last done _ (target last token rest >>= _)
      rw [htarget token rest hbehind (.target node) lifted frames]
      cases target last token rest <;> rfl
    | target metadata => rfl
    | form => rfl

/-- **A form.**  The token either is the node, or says which call is next. -/
theorem runs_form {tokens : List Token}
    (htarget : ∀ mark rest, rest.length < tokens.length → TargetRuns last done mark rest)
    (hchildren : ∀ opener start rest, rest.length < tokens.length →
      ChildrenRuns last done opener start rest) :
    FormRuns last done tokens := by
  intro frames hasks
  cases tokens with
  | nil =>
    obtain rfl : frames = [] := hasks
    rw [form]
    rfl
  | cons token tokens =>
    have hshorter : tokens.length < (token :: tokens).length := Nat.lt_succ_self _
    rw [form]
    cases hrole : Role.of token with
    | leaf kind =>
      have hkind : kind = .atom ∨ owesForm frames = false := by
        cases kind with
        | atom => exact .inl rfl
        | _ => exact .inr (by simpa only [Asks, hrole] using hasks)
      exact ending_complete (step_leaf hrole hkind)
    | opener opener =>
      have hstep : step .form frames token = .go (.opened opener token [] :: frames) := by
        rw [step, hrole]
      rw [ending_go last done tokens hstep, hchildren opener token tokens hshorter [] frames]
      dsimp only
      cases children last opener token tokens <;> rfl
    | mark duty =>
      rw [runs_mark hrole htarget frames, form, hrole]
    | closer =>
      obtain rfl : frames = [] := by simpa only [Asks, hrole] using hasks
      have hstep : step .form [] token =
          .fault (faultAt token (.unexpectedCloser token.value)) false := by
        rw [step, hrole]
        rfl
      exact ending_fault last done tokens hstep
    | finish =>
      obtain rfl : frames = [] := by simpa only [Asks, hrole] using hasks
      have hstep : step .form [] token =
          .fault (faultAt token (.unexpectedEnd token.kind)) false := by
        rw [step, hrole]
        rfl
      exact ending_fault last done tokens hstep

/-- **The target of a mark.**  Comments and trivia leave the mark open; a form is handed to it. -/
theorem runs_target {mark : Token} {tokens : List Token} (hform : FormRuns last done tokens)
    (htarget : ∀ rest, rest.length < tokens.length → TargetRuns last done mark rest) :
    TargetRuns last done mark tokens := by
  intro duty held frames
  cases tokens with
  | nil =>
    rw [target]
    rfl
  | cons token tokens =>
    have hshorter : tokens.length < (token :: tokens).length := Nat.lt_succ_self _
    have hdangling (h : step .form (.owing duty mark held :: frames) token =
        .fault (faultAt mark (.danglingMark mark.value)) false) := ending_fault last done tokens h
    rw [target]
    cases hrole : Role.of token with
    | leaf kind =>
      cases kind with
      | atom => exact hform _ (by simp only [Asks, hrole])
      -- A comment is held behind the mark, and the target is still missing.
      | comment =>
        have hstep : step .form (.owing duty mark held :: frames) token =
            .go (.owing duty mark (held ++ [.comment token.text, .newline "\n"]) :: frames) := by
          rw [step, hrole]
          rfl
        rw [ending_go last done tokens hstep, htarget tokens hshorter]
        dsimp only
        cases target last mark tokens with
        | error fault => rfl
        | ok p => exact congrArg (after last done p.rest) (complete_lifted ..)
      | space | newline | comma =>
        have hstep : step .form (.owing duty mark held :: frames) token =
            .go (.owing duty mark held :: frames) := by
          rw [step, hrole]
          rfl
        rw [ending_go last done tokens hstep, htarget tokens hshorter]
        dsimp only
        cases target last mark tokens <;> rfl
    | opener opener => exact hform _ (by simp only [Asks, hrole])
    | mark inner => exact hform _ (by simp only [Asks, hrole])
    | closer => exact hdangling (by rw [step, hrole]; rfl)
    | finish => exact hdangling (by rw [step, hrole]; rfl)

/-- A child is kept with those read before, and the rest of the children is behind it. -/
theorem runs_child {opener : Opener} {start : Token} {tokens : List Token}
    (hform : FormRuns last done tokens)
    (hchildren : ∀ rest, rest.length < tokens.length → ChildrenRuns last done opener start rest)
    {cs : List Node} {frames : List Frame} (hasks : Asks (.opened opener start cs :: frames) tokens) :
    (run .form last (.opened opener start cs :: frames) done tokens).ending =
      handOn last done (fun nodes => complete frames [] (opener.build (cs.reverse ++ nodes)))
        (do
          let p ← form last tokens
          let q ← children last opener start p.rest
          return q.behind (Nat.le_of_lt p.shorter) fun nodes => p.value.1 ++ p.value.2 :: nodes) := by
  rw [hform _ hasks]
  cases form last tokens with
  | error fault => rfl
  | ok p =>
    obtain ⟨⟨lifted, node⟩, rest, hrest⟩ := p
    show (run .form last (.opened opener start (node :: (lifted.reverse ++ cs)) :: frames) done
      rest).ending = handOn last done _ (children last opener start rest >>= _)
    rw [hchildren rest hrest]
    cases children last opener start rest with
    | error fault => rfl
    | ok q =>
      have hall : (node :: (lifted.reverse ++ cs)).reverse ++ q.value =
          cs.reverse ++ (lifted ++ node :: q.value) := by simp
      exact congrArg (fun nodes => after last done q.rest
        (complete frames [] (opener.build nodes))) hall

/-- **The children of a bracket.**  A node becomes a child, the closing bracket ends them. -/
theorem runs_children {opener : Opener} {start : Token} {tokens : List Token}
    (hform : FormRuns last done tokens)
    (hchildren : ∀ rest, rest.length < tokens.length →
      ChildrenRuns last done opener start rest) :
    ChildrenRuns last done opener start tokens := by
  intro cs frames
  cases tokens with
  | nil =>
    rw [children]
    rfl
  | cons token tokens =>
    rw [children]
    cases hrole : Role.of token with
    | leaf kind =>
      exact runs_child hform hchildren (by cases kind <;> simp [Asks, hrole, owesForm])
    | opener opener' => exact runs_child hform hchildren (by simp only [Asks, hrole])
    | mark duty => exact runs_child hform hchildren (by simp only [Asks, hrole])
    | closer =>
      have hstep : step .form (.opened opener start cs :: frames) token =
          stepCloser .form token (.opened opener start cs :: frames) := by rw [step, hrole]
      rw [stepCloser] at hstep
      dsimp only
      split
      · rename_i hfits
        rw [if_pos hfits] at hstep
        rw [ending_complete hstep]
        simp [handOn]
      · rename_i hfits
        rw [if_neg hfits] at hstep
        exact ending_fault last done tokens hstep
    | finish =>
      have hstep : step .form (.opened opener start cs :: frames) token =
          .fault (faultAt start (.unclosed opener.opening)) false := by
        rw [step, hrole]
        rfl
      exact ending_fault last done tokens hstep

/-- **Every piece.**  Strong induction on the number of tokens: targets and children are asked for
    behind a token, forms also where they are. -/
theorem runs (last : Token) (done : List Node) (tokens : List Token) :
    FormRuns last done tokens ∧ (∀ mark, TargetRuns last done mark tokens) ∧
      ∀ opener start, ChildrenRuns last done opener start tokens := by
  induction hlength : tokens.length using Nat.strongRecOn generalizing tokens with
  | _ length ih =>
    subst hlength
    have hform : FormRuns last done tokens :=
      runs_form (fun mark rest hrest => (ih _ hrest rest rfl).2.1 mark)
        fun opener start rest hrest => (ih _ hrest rest rfl).2.2 opener start
    refine ⟨hform, fun mark => ?_, fun opener start => ?_⟩
    · exact runs_target hform fun rest hrest => (ih _ hrest rest rfl).2.1 mark
    · exact runs_children hform fun rest hrest => (ih _ hrest rest rfl).2.2 opener start

/-- With no frame open a form is asked for everywhere. -/
theorem asks_nil (tokens : List Token) : Asks [] tokens := by
  cases tokens with
  | nil => rfl
  | cons token tokens =>
    unfold Asks
    cases hrole : Role.of token with
    | leaf kind => cases kind <;> simp only [hrole, owesForm]
    | _ => simp only [hrole]

/-- How a run over a document ends that has read some nodes, by what is read behind them. -/
def ended (done : List Node) :
    Except (SyntaxError × List Token) (List Node × List Token) →
      Except SyntaxError (List Node) × List Token
  | .ok (nodes, rest) => (.ok (done.reverse ++ nodes), rest)
  | .error (error, rest) => (.error error, rest)

/-- Unless reading stops at a token, one node is read, and the rest of the document behind it. -/
theorem runs_node {last token : Token} {done : List Node} {tokens : List Token}
    (hrest : ∀ (rest : List Token) (done : List Node), rest.length < (token :: tokens).length →
      (run .document last [] done rest).ending = ended done (document last rest))
    (hclose : Role.of token ≠ .closer) (hend : Role.of token ≠ .finish) :
    (run .document last [] done (token :: tokens)).ending =
      ended done (do
        let p ← form last (token :: tokens)
        let (nodes, rest) ← document last p.rest
        return (p.value.1 ++ p.value.2 :: nodes, rest)) := by
  have hkind : token.kind ≠ .close ∧ token.kind ≠ .endOfText :=
    ⟨fun h => hclose (by simp only [Role.of, h]), fun h => hend (by simp only [Role.of, h])⟩
  rw [ending_document last done remarks_no_frames (.inr hkind),
    (runs last [] (token :: tokens)).1 [] (asks_nil _)]
  cases form last (token :: tokens) with
  | error fault => rfl
  | ok p =>
    obtain ⟨⟨lifted, node⟩, rest, hshorter⟩ := p
    show (run .document last [] ((lifted ++ [node]).reverse ++ done) rest).ending =
      ended done (document last rest >>= _)
    rw [hrest rest _ hshorter]
    cases document last rest with
    | error fault => rfl
    | ok found =>
      have hall : ((lifted ++ [node]).reverse ++ done).reverse ++ found.1 =
          done.reverse ++ (lifted ++ node :: found.1) := by simp
      exact congrArg (fun nodes => (Except.ok nodes, found.2)) hall

/-- **All nodes.**  Induction on the number of tokens: every node takes some. -/
theorem runs_document (last : Token) (done : List Node) (tokens : List Token) :
    (run .document last [] done tokens).ending = ended done (document last tokens) := by
  induction hlength : tokens.length using Nat.strongRecOn generalizing tokens done with
  | _ length ih =>
    subst hlength
    cases tokens with
    | nil =>
      rw [document]
      exact congrArg (fun nodes => (Except.ok nodes, [])) (List.append_nil _).symm
    | cons token tokens =>
      rw [document]
      cases hrole : Role.of token with
      | leaf _ | opener _ | mark _ =>
        exact runs_node (fun rest done hrest => ih _ hrest done rest rfl)
          (fun h => by cases hrole.symm.trans h) (fun h => by cases hrole.symm.trans h)
      -- No bracket is open that a closing one could fit.
      | closer =>
        have hstep : step .document [] token =
            .fault (faultAt token (.unmatchedCloser token.value)) false := by
          rw [step, hrole]
          rfl
        exact ending_fault last done tokens hstep
      | finish =>
        have hstep : step .document [] token = .finished := by
          rw [step, hrole]
          rfl
        rw [run, hstep]
        exact congrArg (fun nodes => (Except.ok nodes, token :: tokens)) (List.append_nil _).symm

end

end Descent

/-! ## At a cursor -/

namespace Cursor

variable (c : Cursor)

/-- An answer for the tokens ahead, told at the cursor. -/
def told {ε α β : Type} (f : α → β) (fault : SyntaxError → ε) {tokens : List Token} :
    Descent.Answer α tokens → Except ε β × Cursor
  | .ok p => (.ok (f p.value), c.resume p.rest)
  | .error (error, rest) => (.error (fault error), c.resume rest)

/-- **A form at a cursor.** -/
theorem form_eq_descent :
    c.form = c.told (fun (lifted, node) => lifted ++ [node]) id
      (Descent.form (endOf c.tokens) c.ahead) := by
  rw [form_eq_ending, (Descent.runs (endOf c.tokens) [] c.ahead).1 [] (Descent.asks_nil _)]
  cases Descent.form (endOf c.tokens) c.ahead <;> rfl

/-- **The target of a mark at a cursor.** -/
theorem target_eq_descent :
    c.target = c.told (fun (lifted, node) => (lifted, some node)) id
      (Descent.target (endOf c.tokens) c.current c.ahead) := by
  let ending := (run .form (endOf c.tokens) [.owing .form c.current []] [] c.ahead).ending
  have hruns : ending = _ := (Descent.runs (endOf c.tokens) [] c.ahead).2.1 c.current .form [] []
  show (ending.1.map fun nodes => (nodes.dropLast, nodes.getLast?), c.resume ending.2) = _
  rw [hruns]
  cases Descent.target (endOf c.tokens) c.current c.ahead with
  | error fault => rfl
  | ok p =>
    obtain ⟨⟨lifted, node⟩, rest, -⟩ := p
    show (Except.ok ((lifted ++ [node]).dropLast, (lifted ++ [node]).getLast?), c.resume rest) = _
    rw [List.dropLast_concat, List.getLast?_concat]
    rfl

/-- Moving by one token. -/
theorem ahead_advance {c : Cursor} {token : Token} {tokens : List Token}
    (h : c.ahead = token :: tokens) : (c.advance 1).ahead = tokens := by
  have hplace : c.position < c.tokens.length := by
    have hlength := congrArg List.length h
    rw [ahead, List.length_drop, List.length_cons] at hlength
    omega
  have hnext : (min ((c.position : Int) + 1) c.tokens.length).toNat = c.position + 1 := by omega
  show c.tokens.drop (min ((c.position : Int) + 1) c.tokens.length).toNat = tokens
  rw [hnext, ← List.tail_drop]
  exact congrArg List.tail h

/-- **A collection at a cursor.** -/
theorem collection_eq_descent :
    c.collection =
      match Role.of c.current with
      | .opener opener =>
          c.told (fun nodes => [opener.build nodes]) .malformed
            (Descent.children (endOf c.tokens) opener c.current (c.advance 1).ahead)
      | _ => (.error (.notAnOpener c.current.kind), c) := by
  unfold collection
  cases hrole : Role.of c.current with
  | opener opener =>
    obtain ⟨-, hend⟩ | ⟨tokens, hahead⟩ := c.ahead_cases
    · rw [hend] at hrole
      cases hrole
    · dsimp only
      rw [form_eq_descent, ahead_advance hahead, hahead, Descent.form, hrole]
      dsimp only
      cases Descent.children (endOf c.tokens) opener c.current tokens <;> rfl
  | _ => rfl

/-- **All nodes from the first token on.** -/
theorem document_eq_descent :
    c.document =
      match Descent.document (endOf c.tokens) c.tokens with
      | .ok (nodes, rest) => (.ok nodes, c.resume rest)
      | .error (error, rest) => (.error error, c.resume rest) := by
  let ending := (run .document (endOf c.tokens) [] [] c.tokens).ending
  have hruns : ending = _ := Descent.runs_document (endOf c.tokens) [] c.tokens
  show (ending.1, c.resume ending.2) = _
  rw [hruns]
  cases Descent.document (endOf c.tokens) c.tokens <;> rfl

end Cursor

end CljTidy.Reading
