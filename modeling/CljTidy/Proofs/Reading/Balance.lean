/-
  Balanced texts.

  What reading accepts can be told without building a tree.  Go over the tokens with a stack of what
  is pending: a bracket waits for its closing bracket, and a mark has promised one form, metadata
  two.  A form that is complete fills the promise on top, and with the last promise of a mark the
  marked form is complete in turn (`settle`).  `balance` is this scan, with the token at fault as
  its answer when there is one.

  The frames of the reader are the stack with more written on it (`Tracks`).  One token leads both
  to frames and a stack that still correspond, or both to a fault at one token (`follows_step`), so
  by induction over the tokens they come out alike (`agrees_run`, `parse_balance`).
-/
import CljTidy.Proofs.Reading.Reread
import Mathlib.Data.List.Basic

namespace CljTidy

/-! ## The scan -/

/-- The closing bracket that an opening token asks for. -/
def TokenKind.closing? : TokenKind → Option String
  | .openList => some ")"
  | .openVector => some "]"
  | .openMap => some "\x7d"
  | .openSet => some "\x7d"
  | .openFn => some ")"
  | .openConditional => some ")"
  | _ => none

namespace Reading

/-- What is still missing at some place in a text: the end of a bracket, or a form that a mark has
    promised, which may be the last one it has promised. -/
inductive Pending
  | bracket (token : Token)
  | promise (token : Token) (last : Bool)
  deriving Repr, DecidableEq

namespace Pending

/-- A form is complete: it fills the promise on top, if there is one.  Only a plain map fills the
    promise of a map namespace. -/
def settle : List Pending → Bool → Except Token (List Pending)
  | .promise token last :: stack, isMap =>
      if token.kind = .namespacedMap ∧ isMap = false then .error token
      else if last then settle stack false
      else .ok stack
  | stack, _ => .ok stack

/-- A closing bracket ends the bracket on top, if it is the right one. -/
def close (token : Token) : List Pending → Except Token (List Pending)
  | [] => .error token
  | .promise mark _ :: _ => .error mark
  | .bracket start :: stack =>
      if token.value = start.kind.closing? then settle stack (start.kind == .openMap)
      else .error token

/-- Nothing may be pending at the end. -/
def finish : List Pending → Except Token Unit
  | [] => .ok ()
  | .promise mark _ :: _ => .error mark
  | .bracket start :: _ => .error start

/-- One token in front of the end of the text. -/
def pass (token : Token) (stack : List Pending) : Except Token (List Pending) :=
  if token.kind.isTrivia ∨ token.kind = .comment then .ok stack
  else if token.kind.isAtom then settle stack false
  else if token.kind = .close then close token stack
  else if token.kind.closing?.isSome then .ok (.bracket token :: stack)
  else if token.kind = .metadata then .ok (.promise token false :: .promise token true :: stack)
  else .ok (.promise token true :: stack)

/-- **The scan.**  Goes over the tokens up to the end of the text; the answer is the token at fault,
    if there is one. -/
def balance : List Pending → List Token → Except Token Unit
  | stack, [] => finish stack
  | stack, token :: tokens =>
      if token.kind = .endOfText then finish stack
      else
        match pass token stack with
        | .ok stack => balance stack tokens
        | .error culprit => .error culprit

end Pending

open Pending

/-! ## Frames and what is pending -/

/-- The frames are open for what is pending: each for its own token, in the same order. -/
inductive Tracks : List Frame → List Pending → Prop
  | nil : Tracks [] []
  | opened {opener : Opener} {token : Token} (children : List Node) {frames : List Frame}
      {stack : List Pending} : Role.of token = .opener opener → Tracks frames stack →
      Tracks (.opened opener token children :: frames) (.bracket token :: stack)
  | wrap {mark : Mark} {token : Token} (held : List Node) {frames : List Frame}
      {stack : List Pending} : Role.of token = .mark (.wrap mark) → Tracks frames stack →
      Tracks (.owing (.wrap mark) token held :: frames) (.promise token true :: stack)
  | metadata {token : Token} (held : List Node) {frames : List Frame} {stack : List Pending} :
      token.kind = .metadata → Tracks frames stack →
      Tracks (.owing .metadata token held :: frames)
        (.promise token false :: .promise token true :: stack)
  | target {token : Token} (node : Node) (held : List Node) {frames : List Frame}
      {stack : List Pending} : token.kind = .metadata → Tracks frames stack →
      Tracks (.owing (.target node) token held :: frames) (.promise token true :: stack)

/-- A move of the reader does what the scan does. -/
inductive Follows : Move → Except Token (List Pending) → Prop
  | go {frames : List Frame} {stack : List Pending} :
      Tracks frames stack → Follows (.go frames) (.ok stack)
  | yield (nodes : List Node) : Follows (.yield nodes) (.ok [])
  | fault (token : Token) (cause : ReadingFault) (behind : Bool) :
      Follows (.fault (faultAt token cause) behind) (.error token)

/-! ## One token -/

/-- Only a map namespace is choosy, and only plain maps please it. -/
theorem accepts_eq {token : Token} {mark : Mark} (h : Role.of token = .mark (.wrap mark))
    (node : Node) :
    accepts mark node = false ↔ token.kind = .namespacedMap ∧ node.isMap = false := by
  obtain ⟨kind, value, position⟩ := token
  cases kind <;> cases h <;> simp [accepts]

/-- An opener asks for the closing bracket of its kind. -/
theorem closing_of_role {token : Token} {opener : Opener} (h : Role.of token = .opener opener) :
    token.kind.closing? = some opener.closing := by
  obtain ⟨kind, value, position⟩ := token
  cases kind <;> cases h <;> rfl

/-- Among the brackets, only a plain brace makes a plain map. -/
theorem isMap_build {token : Token} {opener : Opener} (h : Role.of token = .opener opener)
    (children : List Node) : (opener.build children).isMap = (token.kind == .openMap) := by
  obtain ⟨kind, value, position⟩ := token
  cases kind <;> cases h <;> rfl

/-- A finished node settles what its form settles. -/
theorem follows_complete {frames : List Frame} {stack : List Pending} (h : Tracks frames stack)
    (lifted : List Node) (node : Node) :
    Follows (complete frames lifted node) (settle stack node.isMap) := by
  -- Down the frames: a mark that has its last form is a finished node itself, and no plain map.
  induction h generalizing lifted node with
  | nil => exact .yield _
  | opened children hrole hframes _ => exact .go (.opened _ hrole hframes)
  | @wrap mark token held frames stack hrole hframes ih =>
    simp only [complete, settle]
    by_cases haccepts : accepts mark node = true
    · have hpleased : ¬(token.kind = .namespacedMap ∧ node.isMap = false) := fun h =>
        Bool.false_ne_true (((accepts_eq hrole node).mpr h).symm.trans haccepts)
      rw [if_pos haccepts, if_neg hpleased]
      exact ih (held ++ lifted) (.wrap mark node)
    · have hdispleased := (accepts_eq hrole node).mp (eq_false_of_ne_true haccepts)
      rw [if_neg haccepts, if_pos hdispleased]
      exact .fault _ _ _
  | @metadata token held frames stack hkind hframes ih =>
    simp only [complete, settle, hkind]
    exact .go (.target node _ hkind hframes)
  | @target token metadata held frames stack hkind hframes ih =>
    simp only [complete, settle, hkind]
    exact ih (held ++ lifted) (.annotated metadata node)

/-- A node that keeps its place between others settles nothing. -/
theorem follows_child {frames : List Frame} {stack : List Pending} (h : Tracks frames stack)
    (howes : owesForm frames = false) (node : Node) :
    Follows (complete frames [] node) (.ok stack) := by
  cases h with
  | nil => exact .yield _
  | opened children hrole hframes => exact .go (.opened _ hrole hframes)
  | wrap | metadata | target => cases howes

theorem follows_trivia {frames : List Frame} {stack : List Pending} (h : Tracks frames stack)
    (kind : LeafKind) (text : String) : Follows (stepTrivia kind text frames) (.ok stack) := by
  unfold stepTrivia
  split
  · exact .go h
  · rename_i howes
    exact follows_child h (eq_false_of_ne_true howes) _

theorem follows_comment {frames : List Frame} {stack : List Pending} (h : Tracks frames stack)
    (text : String) : Follows (stepComment text frames) (.ok stack) := by
  cases h with
  | nil => exact .yield _
  | opened children hrole hframes => exact .go (.opened _ hrole hframes)
  | wrap held hrole hframes => exact .go (.wrap _ hrole hframes)
  | metadata held hkind hframes => exact .go (.metadata _ hkind hframes)
  | target node held hkind hframes => exact .go (.target _ _ hkind hframes)

theorem follows_closer {frames : List Frame} {stack : List Pending} (h : Tracks frames stack)
    (token : Token) : Follows (stepCloser .document token frames) (close token stack) := by
  cases h with
  | nil => exact .fault _ _ _
  | @opened opener start children frames stack hrole hframes =>
    simp only [stepCloser, close, closing_of_role hrole]
    split
    · rw [← isMap_build hrole children.reverse]
      exact follows_complete hframes [] _
    · exact .fault _ _ _
  | wrap | metadata | target => exact .fault _ _ _

/-- **One token.**  Reader and scan do the same with every token in front of the end. -/
theorem follows_step {frames : List Frame} {stack : List Pending} (h : Tracks frames stack)
    {token : Token} (hend : token.kind ≠ .endOfText) :
    Follows (step .document frames token) (pass token stack) := by
  obtain ⟨kind, value, position⟩ := token
  cases kind with
  | endOfText => exact absurd rfl hend
  | whitespace => exact follows_trivia h .space _
  | newline => exact follows_trivia h .newline _
  | comma => exact follows_trivia h .comma _
  | comment => exact follows_comment h _
  | string | regex | character | symbolic | word => exact follows_complete h [] (.atom _)
  | close => exact follows_closer h _
  | openList | openVector | openMap | openSet | openFn | openConditional =>
    exact .go (.opened [] rfl h)
  | metadata => exact .go (.metadata [] rfl h)
  | quote | syntaxQuote | unquote | unquoteSplicing | deref | varQuote | discard | tag
  | namespacedMap => exact .go (.wrap [] rfl h)

/-! ## All tokens -/

/-- Reading comes out as the scan does: with nodes, or with a fault at the token it names. -/
def Agrees (verdict : Except Token Unit) (outcome : Except SyntaxError (List Node)) : Prop :=
  match verdict with
  | .ok _ => ∃ children, outcome = .ok children
  | .error token => ∃ cause, outcome = .error (faultAt token cause)

theorem agrees_finish {frames : List Frame} {stack : List Pending} (h : Tracks frames stack)
    (last token : Token) (done : List Node) (tokens : List Token) :
    Agrees (finish stack) (proceed last done tokens (stepFinish .document token frames)) := by
  cases h with
  | nil => exact ⟨_, rfl⟩
  | opened | wrap | metadata | target => exact ⟨_, rfl⟩

/-- **A run.**  Whatever is pending, reading and scanning the same tokens come out alike. -/
theorem agrees_run (last : Token) (tokens : List Token) {frames : List Frame}
    {stack : List Pending} (h : Tracks frames stack) (done : List Node) :
    Agrees (balance stack tokens) (run .document last frames done tokens).outcome := by
  induction tokens generalizing frames stack done with
  | nil =>
    cases h with
    | nil => exact ⟨_, rfl⟩
    | opened | wrap | metadata | target => exact ⟨_, rfl⟩
  | cons token tokens ih =>
    rw [outcome_run_cons, balance]
    by_cases hend : token.kind = .endOfText
    · have hfinish : step .document frames token = stepFinish .document token frames := by
        rw [step, show Role.of token = .finish by rw [Role.of, hend]]
      rw [if_pos hend, hfinish]
      exact agrees_finish h last token done tokens
    · rw [if_neg hend]
      have hstep := follows_step h hend
      revert hstep
      generalize step .document frames token = move
      generalize pass token stack = verdict
      intro hstep
      cases hstep with
      | go hframes => exact ih hframes done
      | yield nodes => exact ih .nil (nodes.reverse ++ done)
      | fault culprit cause behind => exact ⟨cause, rfl⟩

end Reading

/-- **Reading accepts the balanced texts.**  A text that is cut into tokens is read if the scan
    finds nothing wrong, and else it is refused at the first token the scan finds fault with. -/
theorem parse_balance {text : String} {tokens : List Token} (h : tokenize text = .ok tokens) :
    Reading.Agrees (Reading.Pending.balance [] tokens) (parse text) := by
  have hparse : parse text = (Reading.document tokens).outcome := by
    rw [parse, h]
    rfl
  rw [hparse]
  exact Reading.agrees_run _ tokens .nil []

/-- Metadata with a comment behind it, and in its map a map namespace in front of a quoted map: the
    text is refused at the namespace. -/
theorem parse_balance_namespace :
    ∃ tokens, tokenize "^;c\n\x7ba #:b '\x7b\x7d" = .ok tokens ∧
      Reading.Pending.balance [] tokens = .error ⟨.namespacedMap, some "#:b", ⟨2, 4⟩⟩ ∧
      Reading.Agrees (Reading.Pending.balance [] tokens) (parse "^;c\n\x7ba #:b '\x7b\x7d") := by
  have htokens : tokenize "^;c\n\x7ba #:b '\x7b\x7d" =
      .ok [⟨.metadata, some "^", ⟨1, 1⟩⟩, ⟨.comment, some ";c", ⟨1, 2⟩⟩,
        ⟨.newline, some "\n", ⟨1, 4⟩⟩, ⟨.openMap, some "\x7b", ⟨2, 1⟩⟩, ⟨.word, some "a", ⟨2, 2⟩⟩,
        ⟨.whitespace, some " ", ⟨2, 3⟩⟩, ⟨.namespacedMap, some "#:b", ⟨2, 4⟩⟩,
        ⟨.whitespace, some " ", ⟨2, 7⟩⟩, ⟨.quote, some "'", ⟨2, 8⟩⟩,
        ⟨.openMap, some "\x7b", ⟨2, 9⟩⟩, ⟨.close, some "\x7d", ⟨2, 10⟩⟩, .atEnd ⟨2, 11⟩] := by
    cbv
  exact ⟨_, htokens, by cbv, parse_balance htokens⟩

end CljTidy
