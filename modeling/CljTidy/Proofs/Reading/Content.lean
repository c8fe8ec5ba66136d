/-
  Reading keeps the content of a text.

  At any moment the frames, from the bottom up, hold the code that was read so far, and the
  comments up to their order: a comment behind a mark is lifted over it.  One token adds its own
  content and nothing else (`holds_step`), so at the end the nodes say what the tokens say
  (`content_of_parse`).  All nodes on the way are sound.
-/
import CljTidy.Proofs.Node.Content
import CljTidy.Proofs.Node.Stand
import CljTidy.Proofs.Reading.Reread
import CljTidy.Proofs.Token.Spelling

namespace CljTidy

/-- Metadata can be written `#^` or `^`; the short spelling stands for both. -/
def Piece.caret (p : Piece) : Piece := if p = ⟨.metadata, "#^"⟩ then ⟨.metadata, "^"⟩ else p

namespace Reading

/-! ## What frames hold -/

/-- The token that opens. -/
def Opener.piece : Opener → Piece
  | .collection b => b.piece
  | .fnLiteral => ⟨.openFn, "#("⟩
  | .conditional splicing => ⟨.openConditional, if splicing then "#?@(" else "#?("⟩

/-- The opener opens a bracket that is written. -/
def Opener.Proper : Opener → Prop
  | .collection b => b.isCollection = true
  | _ => True

/-- The code of a mark that owes something. -/
def Duty.code : Duty → List Piece
  | .wrap m => [m.piece]
  | .metadata => [⟨.metadata, "^"⟩]
  | .target m => ⟨.metadata, "^"⟩ :: m.code
  | .form => []

/-- The comments in what a mark has been given. -/
def Duty.comments : Duty → List String
  | .target m => m.comments
  | _ => []

/-- The mark is a token, and what it has been given is a sound form. -/
def Duty.Sound : Duty → Prop
  | .wrap m => m.fuses = false ∧ m.piece.Whole
  | .target m => m.Sound ∧ m.isForm = true
  | _ => True

/-- The nodes are sound and hold no code. -/
def Lifted (ns : List Node) : Prop := (∀ n ∈ ns, n.Sound) ∧ Node.codeAll ns = []

/-- What is open consists of sound nodes. -/
def Frame.Sound : Frame → Prop
  | .opened opener _ children => opener.Proper ∧ ∀ c ∈ children, c.Sound
  | .owing duty _ lifted => duty.Sound ∧ Lifted lifted

/-- The code of a frame. -/
def Frame.code : Frame → List Piece
  | .opened opener _ children => opener.piece :: Node.codeAll children.reverse
  | .owing duty _ _ => duty.code

/-- The comments in a frame. -/
def Frame.comments : Frame → List String
  | .opened _ _ children => Node.commentsAll children.reverse
  | .owing duty _ lifted => Node.commentsAll lifted ++ duty.comments

/-- The code of frames, the last one first. -/
def codeOf : List Frame → List Piece
  | [] => []
  | frame :: frames => codeOf frames ++ frame.code

/-- The comments in frames, the last one first. -/
def commentsOf : List Frame → List String
  | [] => []
  | frame :: frames => commentsOf frames ++ frame.comments

/-- What a move leaves is sound, and holds the code and the comments. -/
def Move.Holds (code : List Piece) (texts : List String) : Move → Prop
  | .go frames => (∀ f ∈ frames, f.Sound) ∧ codeOf frames = code ∧ (commentsOf frames).Perm texts
  | .yield nodes =>
      (∀ n ∈ nodes, n.Sound) ∧ Node.codeAll nodes = code ∧ (Node.commentsAll nodes).Perm texts
  | .finished => False
  | .fault .. => True

/-- The order of the comments does not matter to what a move holds. -/
theorem Move.Holds.congr {code code' : List Piece} {texts texts' : List String} {move : Move}
    (h : move.Holds code texts) (hcode : code = code') (hp : texts.Perm texts') :
    move.Holds code' texts' := by
  subst hcode
  cases move with
  | go frames => exact ⟨h.1, h.2.1, h.2.2.trans hp⟩
  | yield nodes => exact ⟨h.1, h.2.1, h.2.2.trans hp⟩
  | finished => exact h
  | fault => trivial

theorem lifted_nil : Lifted [] := ⟨by simp, rfl⟩

theorem Lifted.append {xs ys : List Node} (hx : Lifted xs) (hy : Lifted ys) :
    Lifted (xs ++ ys) := by
  refine ⟨fun n hn => ?_, by simp [hx.2, hy.2]⟩
  rcases List.mem_append.mp hn with hn | hn
  · exact hx.1 n hn
  · exact hy.1 n hn

/-! ## Handing a node to the frames -/

/-- A finished node adds its content to what the frames hold. -/
theorem holds_complete : ∀ (frames : List Frame) (lifted : List Node) (node : Node),
    (∀ f ∈ frames, f.Sound) → Lifted lifted → node.Sound →
    (owesForm frames = true → node.isForm = true) →
    (complete frames lifted node).Holds (codeOf frames ++ node.code)
      (commentsOf frames ++ (Node.commentsAll lifted ++ node.comments))
  | [], lifted, node, _, hlifted, hnode, _ => by
      refine ⟨fun n hn => ?_, by simp [hlifted.2, codeOf], by simp [commentsOf]⟩
      rcases List.mem_append.mp hn with hn | hn
      · exact hlifted.1 n hn
      · rw [List.mem_singleton.mp hn]; exact hnode
  | .opened opener token children :: frames, lifted, node, hframes, hlifted, hnode, _ => by
      obtain ⟨⟨hproper, hchildren⟩, hrest⟩ := List.forall_mem_cons.mp hframes
      refine ⟨List.forall_mem_cons.mpr ⟨⟨hproper, fun c hc => ?_⟩, hrest⟩, ?_, ?_⟩
      · rcases List.mem_cons.mp hc with rfl | hc
        · exact hnode
        rcases List.mem_append.mp hc with hc | hc
        · exact hlifted.1 c (List.mem_reverse.mp hc)
        · exact hchildren c hc
      · simp [codeOf, Frame.code, hlifted.2]
      · simp [commentsOf, Frame.comments]
  | .owing duty token held :: frames, lifted, node, hframes, hlifted, hnode, hform => by
      obtain ⟨⟨hduty, hheld⟩, hrest⟩ := List.forall_mem_cons.mp hframes
      have hboth := hheld.append hlifted
      have hn : node.isForm = true := hform rfl
      cases duty with
      | wrap m =>
        rw [complete]
        split
        · rename_i haccepts
          have hwrap : (Node.wrap m node).Sound := .wrap hduty.1 hduty.2 haccepts hn hnode
          refine (holds_complete frames _ _ hrest hboth hwrap fun _ => rfl).congr ?_ (.of_eq ?_)
          · simp [codeOf, Frame.code, Duty.code, Node.code_wrap hduty.1]
          · simp [commentsOf, Frame.comments, Duty.comments, Node.comments_wrap hduty.1]
        · trivial
      | metadata =>
        refine ⟨List.forall_mem_cons.mpr ⟨⟨⟨hnode, hn⟩, hboth⟩, hrest⟩, ?_, .of_eq ?_⟩
        · simp [codeOf, Frame.code, Duty.code]
        · simp [commentsOf, Frame.comments, Duty.comments]
      | target m =>
        -- The comments between the metadata and its target move in front of both.
        have hnode' : (Node.annotated m node).Sound := .annotated hduty.2 hn hduty.1 hnode
        refine (holds_complete frames _ _ hrest hboth hnode' fun _ => rfl).congr ?_ ?_
        · simp [codeOf, Frame.code, Duty.code, Node.code_annotated]
        · rw [Node.comments_annotated, List.perm_iff_count]
          intro text
          simp only [commentsOf, Frame.comments, Duty.comments, Node.commentsAll_append,
            List.count_append]
          omega
      | form =>
        refine (holds_complete frames _ _ hrest hboth hnode fun _ => hn).congr ?_ (.of_eq ?_)
        · simp [codeOf, Frame.code, Duty.code]
        · simp [commentsOf, Frame.comments, Duty.comments]

/-! ## One token -/

section

variable {token : Token} {p : Piece}

/-- A token that becomes a leaf is the token of that leaf. -/
theorem piece_of_leaf {kind : LeafKind} (hsaid : token.said = p.said) (hp : p.Whole)
    (h : Role.of token = .leaf kind) :
    kind.piece p.text = p ∧ (kind = .atom → (Piece.kindOf p.text).isAtom = true) := by
  obtain ⟨hk, -⟩ := said_eq hsaid
  have hkind := hp.kindOf_eq
  obtain ⟨k, text⟩ := p
  rw [Role.of, hk] at h
  cases k <;> first
    | (cases h; exact ⟨rfl, by rintro ⟨⟩⟩)
    | (cases h; exact ⟨by rw [LeafKind.piece, hkind], fun _ => by rw [hkind]; rfl⟩)
    | cases h

/-- A token that opens a bracket is the token of that bracket. -/
theorem piece_of_opener {opener : Opener} (hsaid : token.said = p.said) (hp : p.Regular)
    (h : Role.of token = .opener opener) : opener.piece = p ∧ opener.Proper := by
  obtain ⟨hk, hv⟩ := said_eq hsaid
  obtain ⟨k, text⟩ := p
  rw [Role.of, hk, hv] at h
  cases k <;> cases h
  case openConditional =>
    rcases (hp : text = "#?(" ∨ text = "#?@(") with rfl | rfl
    · exact ⟨rfl, trivial⟩
    · exact ⟨rfl, trivial⟩
  all_goals exact ⟨congrArg (Piece.mk _) (Eq.symm hp), by first | rfl | trivial⟩

/-- A token that becomes a mark is the token of that mark, and does not open a list. -/
theorem piece_of_mark {m : Mark} (hsaid : token.said = p.said) (hp : p.Regular)
    (h : Role.of token = .mark (.wrap m)) : m.piece = p ∧ m.fuses = false := by
  obtain ⟨hk, -⟩ := said_eq hsaid
  have htext := text_of_said hsaid
  have hname : p.text.toList.head? = some '#' → "#" ++ nameOf token = p.text := by
    intro hhead
    rw [nameOf, htext, ← String.toList_inj, String.toList_append, String.toList_ofList]
    cases hcs : p.text.toList with
    | nil => rw [hcs] at hhead; cases hhead
    | cons c cs =>
      rw [hcs] at hhead
      cases hhead
      simp
  obtain ⟨k, text⟩ := p
  rw [Role.of, hk] at h
  cases k <;> cases h
  case tag => exact ⟨congrArg (Piece.mk _) (hname hp), rfl⟩
  case namespacedMap => exact ⟨congrArg (Piece.mk _) (hname hp), rfl⟩
  all_goals exact ⟨congrArg (Piece.mk _) (Eq.symm hp), rfl⟩

/-- Metadata is read off either of its spellings. -/
theorem piece_of_metadata (hsaid : token.said = p.said) (hp : p.Regular)
    (h : Role.of token = .mark .metadata) : p.kind = .metadata ∧ p.caret = ⟨.metadata, "^"⟩ := by
  obtain ⟨hk, -⟩ := said_eq hsaid
  obtain ⟨k, text⟩ := p
  rw [Role.of, hk] at h
  cases k <;> cases h
  rcases (hp : text = "^" ∨ text = "#^") with rfl | rfl <;> exact ⟨rfl, rfl⟩

/-- A mark that has just been read owes the form it wraps, or metadata. -/
theorem duty_of_mark {duty : Duty} (h : Role.of token = .mark duty) :
    (∃ m, duty = .wrap m) ∨ duty = .metadata := by
  obtain ⟨k, value, position⟩ := token
  cases k <;> cases h <;> first | exact .inr rfl | exact .inl ⟨_, rfl⟩

theorem kind_of_closer (hsaid : token.said = p.said) (h : Role.of token = .closer) :
    p.kind = .close := by
  obtain ⟨hk, -⟩ := said_eq hsaid
  obtain ⟨k, text⟩ := p
  rw [Role.of, hk] at h
  cases k <;> cases h
  rfl

/-- A spelling that is not metadata stands for itself. -/
theorem caret_of_ne (h : p.kind ≠ .metadata) : p.caret = p := by
  have hne : p ≠ ⟨.metadata, "#^"⟩ := fun hp => h (by rw [hp])
  rw [Piece.caret, if_neg hne]

theorem map_caret (h : p.kind ≠ .metadata) : (Piece.code [p]).map Piece.caret = Piece.code [p] := by
  cases hc : p.kind.isCode <;> simp [Piece.code, hc, caret_of_ne h]

/-- The code and comments of a token that is part of the program. -/
theorem content_of_code (h : p.kind.isCode = true) :
    Piece.code [p] = [p] ∧ Piece.comments [p] = [] := by
  have hne : (p.kind == .comment) = false := by
    obtain ⟨k, text⟩ := p
    cases k <;> first | rfl | cases h
  simp [Piece.code, Piece.comments, h, hne]

/-- What a leaf says is what its token says. -/
theorem content_of_leaf {kind : LeafKind} (hpiece : kind.piece p.text = p)
    (hatom : kind = .atom → (Piece.kindOf p.text).isAtom = true) :
    (Node.leaf kind p.text).code = (Piece.code [p]).map Piece.caret ∧
      (Node.leaf kind p.text).comments = Piece.comments [p] := by
  have hmeta : p.kind ≠ .metadata := by
    rw [← hpiece]
    intro hk
    cases kind with
    | atom =>
      have ha := hatom rfl
      rw [show Piece.kindOf p.text = .metadata from hk] at ha
      cases ha
    | _ => cases hk
  constructor
  · rw [map_caret hmeta, Node.code, Node.pieces, hpiece]
  · rw [Node.comments, Node.pieces, hpiece]

/-- A comment that is lifted holds no code, nor does the line break behind it. -/
theorem lifted_comment {text : String} (h : (Node.comment text).Sound) :
    Lifted [.comment text, .newline "\n"] := by
  refine ⟨?_, rfl⟩
  simp only [List.mem_cons, List.not_mem_nil, or_false]
  rintro n (rfl | rfl)
  · exact h
  · exact .leaf Piece.whole_newline (by rintro ⟨⟩)

/-- Only a mark owes a form. -/
theorem owesForm_of_no_mark {frames : List Frame}
    (h : ∀ duty mark lifted rest, frames = .owing duty mark lifted :: rest → False) :
    owesForm frames = false := by
  cases frames with
  | nil => rfl
  | cons frame frames =>
    cases frame with
    | opened => rfl
    | owing duty mark lifted => exact (h duty mark lifted frames rfl).elim

/-- A comment behind a mark is held by it; elsewhere it is handed to the frames. -/
theorem holds_comment {frames : List Frame} (hframes : ∀ f ∈ frames, f.Sound) {text : String}
    (h : (Node.comment text).Sound) :
    (stepComment text frames).Holds (codeOf frames) (commentsOf frames ++ [text]) := by
  unfold stepComment
  split
  · obtain ⟨⟨hduty, hlifted⟩, hrest⟩ := List.forall_mem_cons.mp hframes
    have hboth := hlifted.append (lifted_comment h)
    refine ⟨List.forall_mem_cons.mpr ⟨⟨hduty, hboth⟩, hrest⟩, rfl, ?_⟩
    have hheld : Node.commentsAll [.comment text, .newline "\n"] = [text] := rfl
    rw [List.perm_iff_count]
    intro raw
    simp only [commentsOf, Frame.comments, Node.commentsAll_append, hheld, List.count_append]
    omega
  · rename_i hnot
    have howes : owesForm frames = true → (Node.comment text).isForm = true := by
      rw [owesForm_of_no_mark hnot]
      rintro ⟨⟩
    refine (holds_complete frames [] _ hframes lifted_nil h howes).congr ?_ (.of_eq rfl)
    exact List.append_nil _

/-- Trivia behind a mark is dropped; elsewhere it is handed to the frames. -/
theorem holds_trivia {frames : List Frame} (hframes : ∀ f ∈ frames, f.Sound) {kind : LeafKind}
    {text : String} (h : (Node.leaf kind text).Sound)
    (hnoise : (Node.leaf kind text).isNoise = true) :
    (stepTrivia kind text frames).Holds (codeOf frames ++ (Node.leaf kind text).code)
      (commentsOf frames ++ (Node.leaf kind text).comments) := by
  rw [stepTrivia]
  split
  · obtain ⟨hcode, hcomments⟩ := Node.content_noise hnoise
    rw [hcode, hcomments, List.append_nil, List.append_nil]
    exact ⟨hframes, rfl, .refl _⟩
  · rename_i howes
    exact holds_complete frames [] _ hframes lifted_nil h fun hf => absurd hf howes

/-- A leaf is handed to the frames, or it stands behind a mark: then trivia is dropped and a comment
    is held. -/
theorem holds_leaf {frames : List Frame} {kind : LeafKind} (hframes : ∀ f ∈ frames, f.Sound)
    (hsaid : token.said = p.said) (hp : p.Whole) (hrole : Role.of token = .leaf kind) :
    (step .document frames token).Holds (codeOf frames ++ (Piece.code [p]).map Piece.caret)
      (commentsOf frames ++ Piece.comments [p]) := by
  obtain ⟨hpiece, hatom⟩ := piece_of_leaf hsaid hp hrole
  have hsound : (Node.leaf kind p.text).Sound := .leaf (hpiece.symm ▸ hp) hatom
  obtain ⟨hcode, hcomments⟩ := content_of_leaf hpiece hatom
  rw [step, hrole, text_of_said hsaid, ← hcode, ← hcomments]
  cases kind with
  | atom => exact holds_complete frames [] _ hframes lifted_nil hsound fun _ => rfl
  | comment =>
    refine (holds_comment hframes hsound).congr ?_ (.of_eq rfl)
    exact (List.append_nil _).symm
  | _ => exact holds_trivia hframes hsound rfl

/-- A closing bracket that fits makes the node of its opener. -/
theorem holds_closer {frames : List Frame} (hframes : ∀ f ∈ frames, f.Sound)
    (hsaid : token.said = p.said) (hp : p.kind = .close) :
    (stepCloser .document token frames).Holds (codeOf frames ++ (Piece.code [p]).map Piece.caret)
      (commentsOf frames ++ Piece.comments [p]) := by
  cases frames with
  | nil => trivial
  | cons frame frames =>
  cases frame with
  | owing => trivial
  | opened opener start children =>
    rw [stepCloser]
    split
    · rename_i hvalue
      obtain ⟨⟨hproper, hchildren⟩, hrest⟩ := List.forall_mem_cons.mp hframes
      have htext : p = ⟨.close, opener.closing⟩ := by
        rw [(said_eq hsaid).2] at hvalue
        rw [← hp, ← Option.some_inj.mp hvalue]
      obtain ⟨hcode, hcomments⟩ := content_of_code (p := p) (by rw [hp]; rfl)
      have hmembers : ∀ c ∈ children.reverse, c.Sound :=
        fun c hc => hchildren c (List.mem_reverse.mp hc)
      -- What is built is said by its brackets and its children: the opener stands for the first
      -- one.
      have hbuilt : (opener.build children.reverse).Sound ∧
          (opener.build children.reverse).code =
            opener.piece :: (Node.codeAll children.reverse ++ [p]) ∧
          (opener.build children.reverse).comments = Node.commentsAll children.reverse := by
        rw [htext]
        cases opener with
        | collection b =>
          exact ⟨.branch hproper hmembers, Node.code_branch hproper _,
            Node.comments_branch hproper _⟩
        | fnLiteral =>
          exact ⟨.fused rfl hmembers, Node.code_fused rfl _, Node.comments_fused rfl _⟩
        | conditional splicing =>
          refine ⟨.fused rfl hmembers, ?_, Node.comments_fused rfl _⟩
          rw [Opener.build, Node.code_fused rfl]
          cases splicing <;> rfl
      have hform : (opener.build children.reverse).isForm = true := by cases opener <;> rfl
      have hholds := holds_complete frames [] _ hrest lifted_nil hbuilt.1 fun _ => hform
      refine hholds.congr ?_ (.of_eq ?_)
      · rw [hbuilt.2.1, map_caret (by rw [hp]; decide), hcode]
        simp [codeOf, Frame.code]
      · rw [hbuilt.2.2, hcomments]
        simp [commentsOf, Frame.comments]
    · trivial

/-- **One token.**  A token adds its content to what the frames hold. -/
theorem holds_step {frames : List Frame} (hframes : ∀ f ∈ frames, f.Sound)
    (hsaid : token.said = p.said) (hp : p.Whole) :
    (step .document frames token).Holds (codeOf frames ++ (Piece.code [p]).map Piece.caret)
      (commentsOf frames ++ Piece.comments [p]) := by
  have hregular := hp.regular
  cases hrole : Role.of token with
  | leaf kind => exact holds_leaf hframes hsaid hp hrole
  | opener opener =>
    obtain ⟨rfl, hproper⟩ := piece_of_opener hsaid hregular hrole
    have hkind : opener.piece.kind.isCode = true ∧ opener.piece.kind ≠ .metadata := by
      rcases opener with b | _ | _
      · cases b <;> decide
      · decide
      · exact ⟨rfl, by rintro ⟨⟩⟩
    obtain ⟨hcode, hcomments⟩ := content_of_code hkind.1
    rw [step, hrole, map_caret hkind.2, hcode, hcomments]
    refine ⟨List.forall_mem_cons.mpr ⟨⟨hproper, by simp⟩, hframes⟩, ?_, .of_eq ?_⟩
    · simp [codeOf, Frame.code]
    · simp [commentsOf, Frame.comments]
  | mark duty =>
    have hnew : duty.Sound ∧ duty.code = (Piece.code [p]).map Piece.caret ∧
        duty.comments = Piece.comments [p] := by
      rcases duty_of_mark hrole with ⟨m, rfl⟩ | rfl
      · obtain ⟨rfl, hm⟩ := piece_of_mark hsaid hregular hrole
        have hkind : m.piece.kind.isCode = true ∧ m.piece.kind ≠ .metadata := by
          cases m <;> exact ⟨rfl, by rintro ⟨⟩⟩
        obtain ⟨hcode, hcomments⟩ := content_of_code hkind.1
        exact ⟨⟨hm, hp⟩, by rw [map_caret hkind.2, hcode]; rfl, hcomments.symm⟩
      · obtain ⟨hkind, hcaret⟩ := piece_of_metadata hsaid hregular hrole
        obtain ⟨hcode, hcomments⟩ := content_of_code (p := p) (by rw [hkind]; rfl)
        exact ⟨trivial, by rw [hcode, List.map_singleton, hcaret]; rfl, hcomments.symm⟩
    rw [step, hrole]
    refine ⟨List.forall_mem_cons.mpr ⟨⟨hnew.1, lifted_nil⟩, hframes⟩, ?_, .of_eq ?_⟩
    · rw [← hnew.2.1]; rfl
    · rw [← hnew.2.2]; rfl
  | closer =>
    rw [step, hrole]
    exact holds_closer hframes hsaid (kind_of_closer hsaid hrole)
  | finish =>
    -- No token of a text is its end.
    obtain ⟨hk, -⟩ := said_eq hsaid
    obtain ⟨kind, text⟩ := p
    rw [Role.of, hk] at hrole
    cases kind <;> cases hrole
    exact hregular.elim

end

/-! ## All tokens -/

/-- At the end of the text no frame may be left, and what was read comes back. -/
theorem nodes_of_finish {last finish : Token} (hfinish : Role.of finish = .finish)
    {frames : List Frame} {done nodes : List Node}
    (h : (run .document last frames done [finish]).outcome = .ok nodes) :
    frames = [] ∧ done.reverse = nodes := by
  rw [outcome_run_cons, step, hfinish] at h
  cases frames with
  | nil => exact ⟨rfl, by simpa [stepFinish, proceed] using h⟩
  | cons frame frames => cases frame <;> cases h

/-- **All tokens.**  The nodes at the end hold what was read before and what the tokens say. -/
theorem holds_run {last finish : Token} (hfinish : Role.of finish = .finish) :
    ∀ (ps : List Piece) (tokens : List Token) (frames : List Frame) (done nodes : List Node),
      (∀ p ∈ ps, p.Whole) → tokens.map Token.said = ps.map Piece.said →
      (∀ f ∈ frames, f.Sound) → (∀ n ∈ done, n.Sound) →
      (run .document last frames done (tokens ++ [finish])).outcome = .ok nodes →
      (∀ n ∈ nodes, n.Sound) ∧
        Node.codeAll nodes =
          Node.codeAll done.reverse ++ codeOf frames ++ (Piece.code ps).map Piece.caret ∧
        (Node.commentsAll nodes).Perm
          (Node.commentsAll done.reverse ++ commentsOf frames ++ Piece.comments ps)
  | [], tokens, frames, done, nodes, _, hts, _, hdone, hrun => by
      obtain rfl : tokens = [] := by simpa using hts
      obtain ⟨rfl, rfl⟩ := nodes_of_finish hfinish hrun
      refine ⟨fun n hn => hdone n (List.mem_reverse.mp hn), ?_, .of_eq ?_⟩
      · simp [codeOf]
      · simp [commentsOf]
  | p :: ps, tokens, frames, done, nodes, hps, hts, hframes, hdone, hrun => by
      rw [List.map_cons, List.map_eq_cons_iff] at hts
      obtain ⟨token, tokens, rfl, hsaid, hts⟩ := hts
      obtain ⟨hp, hps⟩ := List.forall_mem_cons.mp hps
      have hmove := holds_step hframes hsaid hp
      rw [List.cons_append, outcome_run_cons] at hrun
      generalize step .document frames token = move at hmove hrun
      cases move with
      -- What frames hold grows by what the token says.
      | go frames' =>
        obtain ⟨hframes', hcode, hcomments⟩ := hmove
        obtain ⟨hsound, hc, ht⟩ :=
          holds_run hfinish ps tokens frames' done nodes hps hts hframes' hdone hrun
        refine ⟨hsound, ?_, ht.trans ?_⟩
        · rw [hc, hcode, Piece.code_cons p ps]
          simp
        · rw [Piece.comments_cons p ps]
          simpa using (hcomments.append_right (Piece.comments ps)).append_left _
      -- What was yielded goes to the nodes before it; no frame is left open.
      | yield new =>
        obtain ⟨hnew, hcode, hcomments⟩ := hmove
        have hdone' : ∀ n ∈ new.reverse ++ done, n.Sound := by
          intro n hn
          rcases List.mem_append.mp hn with hn | hn
          · exact hnew n (List.mem_reverse.mp hn)
          · exact hdone n hn
        obtain ⟨hsound, hc, ht⟩ :=
          holds_run hfinish ps tokens [] (new.reverse ++ done) nodes hps hts (by simp) hdone' hrun
        refine ⟨hsound, ?_, ht.trans ?_⟩
        · rw [hc, Piece.code_cons p ps]
          simp [hcode, codeOf]
        · rw [Piece.comments_cons p ps]
          simpa [commentsOf] using (hcomments.append_right (Piece.comments ps)).append_left _
      | finished => exact hmove.elim
      | fault error behind => cases hrun

end Reading

/-- **Reading.**  The nodes of a text are sound and say what its tokens say, the order of comments
    aside. -/
theorem content_of_parse {text : String} {tokens : List Token} {nodes : List Node}
    (htokens : tokenize text = .ok tokens) (hparse : parse text = .ok nodes) :
    (∀ n ∈ nodes, n.Sound) ∧ ∃ ps : List Piece,
      tokens.map Token.said = ps.map Piece.said ++ [(.endOfText, none)] ∧
        Node.codeAll nodes = (Piece.code ps).map Piece.caret ∧
        (Node.commentsAll nodes).Perm (Piece.comments ps) := by
  obtain ⟨ps, hps, hsaid⟩ := spelled_of_tokenize htokens
  rw [parse, htokens] at hparse
  have hrun : (Reading.document tokens).outcome = .ok nodes := hparse
  obtain ⟨ts, e, rfl, hts, hfinish⟩ := Reading.split_finish hsaid
  obtain ⟨hsound, hcode, hcomments⟩ :=
    Reading.holds_run hfinish ps ts [] [] nodes hps hts (by simp) (by simp) hrun
  exact ⟨hsound, ps, hsaid, hcode, hcomments⟩

theorem tokenize_of_parse {text : String} {children : List Node}
    (h : parse text = .ok children) : ∃ tokens, tokenize text = .ok tokens := by
  rw [parse] at h
  cases htokens : tokenize text with
  | error e => rw [htokens] at h; cases h
  | ok tokens => exact ⟨tokens, rfl⟩

/-- The children of a text are sound. -/
theorem sound_of_parse {text : String} {children : List Node} (h : parse text = .ok children) :
    ∀ c ∈ children, c.Sound := by
  obtain ⟨tokens, htokens⟩ := tokenize_of_parse h
  exact (content_of_parse htokens h).1

end CljTidy
