/-
  Reading with other trivia.

  Two token lists that differ in trivia only are read side by side.  What is open on the two sides
  has the same gists, and where comments matter (`strict`), a line break stands last on both sides
  or on none: that decides whether a comment to come stands alone.  Trivia on one side alone keeps
  this (`Close.left`), and so does the same token on both sides (`alike_step`); so both sides are
  read to trees with the same gist, or neither is read (`agree_run`).
-/
import CljTidy.Proofs.Node.Gist
import CljTidy.Proofs.Reading.Content

namespace CljTidy

/-! ## Children one by one -/

namespace Node

/-- A line break was passed since the last form. -/
def breaks : Bool → List Node → Bool
  | broken, [] => broken
  | broken, n :: ns =>
      if n.isNoise then breaks (broken || n.isNewline) ns
      else if n.isComment then breaks broken ns
      else breaks false ns

/-- What is sifted behind other nodes depends on whether a line break was passed there, -/
theorem sift_append (broken : Bool) (ns more : List Node) :
    sift broken (ns ++ more) = sift broken ns ++ sift (breaks broken ns) more := by
  induction ns generalizing broken with
  | nil => rfl
  | cons n ns ih =>
    rw [List.cons_append, sift, sift, breaks]
    split
    · exact ih _
    · split
      · rw [ih, List.append_assoc, List.cons_append]
      · rw [ih, List.cons_append]

/-- and so does whether one is passed behind both. -/
theorem breaks_append (broken : Bool) (ns more : List Node) :
    breaks broken (ns ++ more) = breaks (breaks broken ns) more := by
  induction ns generalizing broken with
  | nil => rfl
  | cons n ns ih =>
    rw [List.cons_append, breaks, breaks]
    split
    · exact ih _
    · split <;> exact ih _

/-- Line breaks are their own gist. -/
theorem breaks_map_gist (broken : Bool) (ns : List Node) :
    breaks broken (ns.map gist) = breaks broken ns := by
  induction ns generalizing broken with
  | nil => rfl
  | cons n ns ih =>
    rw [List.map_cons, breaks, breaks, inward_gist.isNoise, inward_gist.isComment]
    split
    · rename_i hn
      rw [inward_gist.of_noise hn, ih]
    · split <;> exact ih _

/-- The gists of nodes in a row. -/
theorem gists_append (cs ds : List Node) :
    gists (cs ++ ds) = gists cs ++ sift (breaks true cs) (ds.map gist) := by
  rw [gists, List.map_append, sift_append, breaks_map_gist, gists]

end Node

namespace Reading

/-! ## Two sides -/

/-- Children that differ in trivia only.  If comments are to come, they have to stand alone on both
    sides or on none. -/
structure Close (strict : Bool) (cs ds : List Node) : Prop where
  gists : Node.gists cs = Node.gists ds
  breaks : strict = true → Node.breaks true cs = Node.breaks true ds

/-- No children differ in nothing. -/
theorem close_nil (strict : Bool) : Close strict [] [] := ⟨rfl, fun _ => rfl⟩

variable {strict : Bool}

/-- Trivia behind the children does not show in their gists, -/
theorem gists_noise {n : Node} (h : n.isNoise = true) (cs : List Node) :
    Node.gists (cs ++ [n]) = Node.gists cs := by
  have hnoise : n.gist.isNoise = true := (Node.inward_gist.isNoise n).trans h
  rw [Node.gists_append, List.map_singleton, Node.sift_noise hnoise]
  exact List.append_nil _

/-- but a line break there is remembered. -/
theorem breaks_noise {n : Node} (h : n.isNoise = true) (cs : List Node) :
    Node.breaks true (cs ++ [n]) = (Node.breaks true cs || n.isNewline) := by
  rw [Node.breaks_append, Node.breaks, if_pos h]
  rfl

/-- Trivia on both sides. -/
theorem Close.noise {cs ds : List Node} (h : Close strict cs ds) {n : Node}
    (hn : n.isNoise = true) : Close strict (cs ++ [n]) (ds ++ [n]) := by
  constructor
  · rw [gists_noise hn, gists_noise hn, h.gists]
  · intro hs
    rw [breaks_noise hn, breaks_noise hn, h.breaks hs]

/-- Trivia on one side, but no line break that is new there. -/
theorem Close.left {cs ds : List Node} (h : Close strict cs ds) {n : Node} (hn : n.isNoise = true)
    (hbroken : strict = true → n.isNewline = true → Node.breaks true cs = true) :
    Close strict (cs ++ [n]) ds := by
  constructor
  · rw [gists_noise hn, h.gists]
  · intro hs
    rw [breaks_noise hn, ← h.breaks hs]
    cases hnewline : n.isNewline with
    | true => rw [hbroken hs hnewline]; rfl
    | false => exact Bool.or_false _

/-- The same nodes on both sides, where it is known whether a comment stands alone. -/
theorem Close.lifted {cs ds : List Node} (h : Close strict cs ds) {lifted : List Node}
    (hlifted : strict = false → lifted = []) : Close strict (cs ++ lifted) (ds ++ lifted) := by
  cases strict with
  | true =>
    constructor
    · rw [Node.gists_append, Node.gists_append, h.gists, h.breaks rfl]
    · intro hs
      rw [Node.breaks_append, Node.breaks_append, h.breaks hs]
  | false =>
    rw [hlifted rfl, List.append_nil, List.append_nil]
    exact h

/-- Forms with the same gist on both sides. -/
theorem Close.form {cs ds : List Node} (h : Close strict cs ds) {n m : Node}
    (hn : n.isForm = true) (hgist : n.gist = m.gist) : Close strict (cs ++ [n]) (ds ++ [m]) := by
  have hm : m.isForm = true := by
    rw [← Node.inward_gist.isForm m, ← hgist, Node.inward_gist.isForm, hn]
  have hsift : ∀ b, Node.sift b [n.gist] = [n.gist] :=
    fun b => Node.sift_form ((Node.inward_gist.isForm n).trans hn) b []
  have hbreaks : ∀ (x : Node), x.isForm = true → ∀ b, Node.breaks b [x] = false := by
    intro x hx b
    obtain ⟨hnoise, hcomment⟩ := Node.isForm_iff.mp hx
    rw [Node.breaks, hnoise, hcomment]
    rfl
  constructor
  · rw [Node.gists_append, Node.gists_append, h.gists, List.map_singleton, List.map_singleton,
      ← hgist, hsift, hsift]
  · intro _
    rw [Node.breaks_append, Node.breaks_append, hbreaks n hn, hbreaks m hm]

/-! ## What is open -/

/-- What is owed, up to gist. -/
def Duty.gist : Duty → Duty
  | .target m => .target m.gist
  | duty => duty

/-- Open frames that differ in trivia only. -/
inductive Alike (strict : Bool) : List Frame → List Frame → Prop
  | nil : Alike strict [] []
  | opened {opener : Opener} {t u : Token} {cs ds : List Node} {fs gs : List Frame}
      (proper : opener.Proper) (children : Close strict cs.reverse ds.reverse)
      (rest : Alike strict fs gs) :
      Alike strict (.opened opener t cs :: fs) (.opened opener u ds :: gs)
  | owing {d e : Duty} {t u : Token} {lifted : List Node} {fs gs : List Frame}
      (duty : d.gist = e.gist) (comments : strict = false → lifted = [])
      (rest : Alike strict fs gs) : Alike strict (.owing d t lifted :: fs) (.owing e u lifted :: gs)

/-- Moves that lead to frames and nodes that differ in trivia only. -/
inductive Move.Alike (strict : Bool) : Move → Move → Prop
  | go {fs gs : List Frame} (frames : Reading.Alike strict fs gs) : Alike strict (.go fs) (.go gs)
  | yield {ns ms : List Node}
      (nodes : ∀ cs ds, Close strict cs ds → Close strict (cs ++ ns) (ds ++ ms)) :
      Alike strict (.yield ns) (.yield ms)
  | finished : Alike strict .finished .finished
  | fault {e e' : SyntaxError} {b b' : Bool} : Alike strict (.fault e b) (.fault e' b')

/-- Whether a mark takes a form can be told from its gist. -/
theorem accepts_gist {n m : Node} (h : n.gist = m.gist) (mark : Mark) :
    accepts mark n = accepts mark m := by
  refine Node.accepts_of_face ?_
  rw [← Node.face_gist, h, Node.face_gist]

/-- Forms with the same gist are handed on alike. -/
theorem alike_form {fs gs : List Frame} (h : Alike strict fs gs) :
    ∀ {lifted : List Node} {n m : Node}, (strict = false → lifted = []) → n.isForm = true →
      n.gist = m.gist → Move.Alike strict (complete fs lifted n) (complete gs lifted m) := by
  induction h with
  -- No frame is open: both yield.
  | nil =>
    intro lifted n m hlifted hn hgist
    refine .yield fun cs ds hclose => ?_
    rw [← List.append_assoc, ← List.append_assoc]
    exact (hclose.lifted hlifted).form hn hgist
  -- The children of a bracket stay close.
  | opened proper children rest _ =>
    intro lifted n m hlifted hn hgist
    refine .go (.opened proper ?_ rest)
    have hclose := (children.lifted hlifted).form hn hgist
    simpa using hclose
  | @owing d e t u held fs gs duty comments rest ih =>
    intro lifted n m hlifted hn hgist
    have hboth : strict = false → held ++ lifted = [] := by
      intro hs
      rw [comments hs, hlifted hs]
      rfl
    cases d with
    -- A mark that takes the one form takes the other one.
    | wrap mark =>
      obtain rfl : e = .wrap mark := by cases e <;> first | exact duty.symm | cases duty
      simp only [complete, accepts_gist hgist mark]
      split
      · exact ih hboth rfl (congrArg mark.over hgist)
      · exact .fault
    -- Metadata goes on to wait for its target.
    | metadata =>
      obtain rfl : e = .metadata := by cases e <;> first | rfl | cases duty
      exact .go (.owing (congrArg Duty.target hgist) hboth rest)
    | target x =>
      obtain ⟨y, rfl, hxy⟩ : ∃ y, e = .target y ∧ x.gist = y.gist := by
        cases e with
        | target y => exact ⟨y, rfl, by injection duty⟩
        | _ => cases duty
      refine ih hboth rfl ?_
      rw [Node.gist, hxy, hgist, ← Node.gist]
    | form =>
      obtain rfl : e = .form := by cases e <;> first | rfl | cases duty
      exact ih hboth hn hgist

/-- The same leaf in no mark's place is handed on alike. -/
theorem alike_leaf {fs gs : List Frame} (h : Alike strict fs gs) (howes : owesForm fs = false)
    {n : Node} (hn : ∀ cs ds, Close strict cs ds → Close strict (cs ++ [n]) (ds ++ [n])) :
    Move.Alike strict (complete fs [] n) (complete gs [] n) := by
  cases h with
  | nil => exact .yield hn
  | opened proper children rest =>
    refine .go (.opened proper ?_ rest)
    simpa using hn _ _ children
  | owing => cases howes

/-- A mark is on top on both sides or on none. -/
theorem Alike.owesForm {fs gs : List Frame} (h : Alike strict fs gs) :
    owesForm fs = Reading.owesForm gs := by
  cases h <;> rfl

/-- The same comment on both sides stands alone on both or on none. -/
theorem alike_comment {fs gs : List Frame} (h : Alike strict fs gs) (hs : strict = true)
    (text : String) : Move.Alike strict (stepComment text fs) (stepComment text gs) := by
  have hnot : ∀ {ns : List Node}, strict = false → ns = [] := by
    intro ns hf
    cases hs.symm.trans hf
  have hleaf : ∀ cs ds, Close strict cs ds →
      Close strict (cs ++ [.comment text]) (ds ++ [.comment text]) :=
    fun _ _ hclose => hclose.lifted hnot
  cases h with
  | nil => exact alike_leaf .nil rfl hleaf
  | opened proper children rest => exact alike_leaf (.opened proper children rest) rfl hleaf
  | owing duty comments rest => exact .go (.owing duty hnot rest)

/-- The same trivia is kept on both sides or skipped on both. -/
theorem alike_trivia {fs gs : List Frame} (h : Alike strict fs gs) {kind : LeafKind}
    {text : String} (hn : (Node.leaf kind text).isNoise = true) :
    Move.Alike strict (stepTrivia kind text fs) (stepTrivia kind text gs) := by
  unfold stepTrivia
  rw [← h.owesForm]
  split
  · exact .go h
  · rename_i howes
    exact alike_leaf h (Bool.eq_false_iff.mpr howes) fun _ _ hclose => hclose.noise hn

/-- The same brackets around children that differ in trivia only. -/
theorem gist_build {opener : Opener} (hopener : opener.Proper) {cs ds : List Node}
    (h : Node.gists cs = Node.gists ds) : (opener.build cs).gist = (opener.build ds).gist := by
  have hbranch : ∀ b : Bracket, b.isCollection = true →
      (Node.branch b cs).gist = (Node.branch b ds).gist := by
    intro b hb
    rw [Node.gist_collection hb, Node.gist_collection hb, h]
  cases opener with
  | collection b => exact hbranch b hopener
  | fnLiteral => exact congrArg (Mark.over .fnLiteral) (hbranch .list rfl)
  | conditional splicing => exact congrArg (Mark.over (.conditional splicing)) (hbranch .list rfl)

/-- A closing bracket fits on both sides or on none; the children it closes differ in trivia only.
    -/
theorem alike_closer {fs gs : List Frame} (h : Alike strict fs gs) {t u : Token}
    (hvalue : t.value = u.value) :
    Move.Alike strict (stepCloser .document t fs) (stepCloser .document u gs) := by
  cases h with
  | nil => exact .fault
  | @opened opener _ _ cs ds fs gs proper children rest =>
    simp only [stepCloser, hvalue]
    split
    · refine alike_form rest (fun _ => rfl) ?_ (gist_build proper children.gists)
      cases opener <;> rfl
    · exact .fault
  | owing => exact .fault

/-- At the end of the text something is open on both sides or on none. -/
theorem alike_finish {fs gs : List Frame} (h : Alike strict fs gs) (t u : Token) :
    Move.Alike strict (stepFinish .document t fs) (stepFinish .document u gs) := by
  cases h with
  | nil => exact .finished
  | opened => exact .fault
  | owing => exact .fault

/-- What a token says gives its part. -/
theorem role_of_said {t u : Token} (h : t.said = u.said) : Role.of t = Role.of u := by
  obtain ⟨kind, value, _⟩ := t
  obtain ⟨kind', value', _⟩ := u
  obtain ⟨rfl, rfl⟩ : kind = kind' ∧ value = value' := by simpa [Token.said] using h
  rfl

/-- A token opens a collection only. -/
theorem proper_of_role {t : Token} {opener : Opener} (h : Role.of t = .opener opener) :
    opener.Proper := by
  obtain ⟨kind, value, _⟩ := t
  cases kind <;> cases h <;> first | rfl | trivial

/-- The same token on both sides keeps them alike. -/
theorem alike_step {fs gs : List Frame} (h : Alike strict fs gs) {t u : Token}
    (hsaid : t.said = u.said) (hcomment : t.kind = .comment → strict = true) :
    Move.Alike strict (step .document fs t) (step .document gs u) := by
  have hvalue : t.value = u.value := congrArg Prod.snd hsaid
  have htext : t.text = u.text := by rw [Token.text, hvalue, Token.text]
  rw [step, step, ← role_of_said hsaid, ← htext]
  cases hrole : Role.of t with
  | leaf kind =>
    cases kind with
    | atom => exact alike_form h (fun _ => rfl) rfl rfl
    | comment =>
      have hkind : t.kind = .comment := by
        obtain ⟨kind, value, _⟩ := t
        cases kind <;> first | rfl | cases hrole
      exact alike_comment h (hcomment hkind) _
    | _ => exact alike_trivia h rfl
  | opener opener => exact .go (.opened (proper_of_role hrole) (close_nil strict) h)
  | mark duty => exact .go (.owing rfl (fun _ => rfl) h)
  | closer => exact alike_closer h hvalue
  | finish => exact alike_finish h t u

/-! ## All tokens -/

/-- The second list of tokens is the first one with less trivia.  Comments and line breaks matter if
    `strict`; then a line break is left out only behind another one, which `broken` says. -/
inductive Respaced (strict : Bool) : Bool → List Token → List Token → Prop
  | nil {broken : Bool} : Respaced strict broken [] []
  | skip {broken : Bool} {t : Token} {ts us : List Token} (trivia : t.kind.isTrivia = true)
      (again : strict = true → t.kind = .newline → broken = true)
      (rest : Respaced strict broken ts us) : Respaced strict broken (t :: ts) us
  | same {broken : Bool} {t u : Token} {ts us : List Token} (said : t.said = u.said)
      (comment : t.kind = .comment → strict = true)
      (rest : Respaced strict (t.kind == .newline) ts us) :
      Respaced strict broken (t :: ts) (u :: us)

/-- Readings that end with the same gist, or both fail. -/
inductive Agree : Except SyntaxError (List Node) → Except SyntaxError (List Node) → Prop
  | ok {cs ds : List Node} (gists : Node.gists cs = Node.gists ds) : Agree (.ok cs) (.ok ds)
  | error (e e' : SyntaxError) : Agree (.error e) (.error e')

/-- Agreement goes both ways, -/
theorem Agree.symm {a b : Except SyntaxError (List Node)} (h : Agree a b) : Agree b a := by
  cases h with
  | ok gists => exact .ok gists.symm
  | error e e' => exact .error e' e

/-- and from one reading to the next. -/
theorem Agree.trans {a b c : Except SyntaxError (List Node)} (h : Agree a b) (h' : Agree b c) :
    Agree a c := by
  cases h with
  | ok gists => cases h' with | ok gists' => exact .ok (gists.trans gists')
  | error e e' => cases h' with | error _ e'' => exact .error e e''

/-- What is collected at the moment: the children of the bracket on top, or the nodes read. -/
def level (done : List Node) : List Frame → Option (List Node)
  | [] => some done.reverse
  | .opened _ _ children :: _ => some children.reverse
  | .owing .. :: _ => none

/-- Where comments matter, a line break behind a line break stands in what is collected. -/
def Broken (strict broken : Bool) (frames : List Frame) (done : List Node) : Prop :=
  strict = true → broken = true → ∀ cs ∈ level done frames, Node.breaks true cs = true

/-- What trivia does to the open frames. -/
theorem step_trivia {t : Token} (h : t.kind.isTrivia = true) :
    ∃ n : Node, n.isNoise = true ∧ n.isNewline = (t.kind == .newline) ∧
      ∀ fs, step .document fs t = if owesForm fs then .go fs else complete fs [] n := by
  obtain ⟨kind, value, position⟩ := t
  cases kind with
  | whitespace => exact ⟨.space (value.getD ""), rfl, rfl, fun _ => rfl⟩
  | newline => exact ⟨.newline (value.getD ""), rfl, rfl, fun _ => rfl⟩
  | comma => exact ⟨.comma (value.getD ""), rfl, rfl, fun _ => rfl⟩
  | _ => cases h

/-- Going on after a line break, a line break stands in what is collected. -/
theorem broken_newline {t : Token} (h : t.kind = .newline) (fs : List Frame) (done : List Node) :
    (∀ fs', step .document fs t = .go fs' → ∀ cs ∈ level done fs', Node.breaks true cs = true) ∧
      ∀ ns, step .document fs t = .yield ns →
        Node.breaks true (ns.reverse ++ done).reverse = true := by
  obtain ⟨n, hnoise, hnewline, hstep⟩ := step_trivia (t := t) (by rw [h]; rfl)
  have hbreaks : ∀ cs, Node.breaks true (cs ++ [n]) = true := by
    intro cs
    rw [breaks_noise hnoise, hnewline, h]
    exact Bool.or_true _
  rw [hstep]
  constructor
  · intro fs' hgo cs hcs
    cases fs with
    | nil => cases hgo
    | cons f fs =>
      cases f with
      | opened opener start children =>
        obtain rfl := Move.go.inj hgo
        obtain rfl := Option.some.inj hcs
        simpa using hbreaks children.reverse
      | owing duty mark lifted =>
        obtain rfl := Move.go.inj hgo
        cases hcs
  · intro ns hyield
    cases fs with
    | nil =>
      obtain rfl := Move.yield.inj hyield
      simpa using hbreaks done.reverse
    | cons f fs => cases f <;> cases hyield

/-- **Reading does not depend on trivia.**  Both readings end with the same gist, or both fail. -/
theorem agree_run {broken : Bool} {ts us : List Token} (h : Respaced strict broken ts us)
    (last last' : Token) :
    ∀ {fs gs : List Frame} {done done' : List Node}, Alike strict fs gs →
      Close strict done.reverse done'.reverse → Broken strict broken fs done →
      Agree (run .document last fs done ts).outcome (run .document last' gs done' us).outcome := by
  induction h with
  | nil =>
    intro fs gs done done' hframes hdone _
    rw [run, run]
    cases hframes with
    | nil => exact .ok hdone.gists
    | opened => exact .error _ _
    | owing => exact .error _ _
  | @skip broken t ts us trivia again rest ih =>
    intro fs gs done done' hframes hdone hbroken
    obtain ⟨n, hnoise, hnewline, hstep⟩ := step_trivia trivia
    -- A line break that is left out on the other side is not new on this one.
    have hnew : ∀ cs ∈ level done fs, strict = true → n.isNewline = true →
        Node.breaks true cs = true := by
      intro cs hcs hs hn
      rw [hnewline] at hn
      exact hbroken hs (again hs (beq_iff_eq.mp hn)) cs hcs
    have hkeep : ∀ cs ∈ level done fs, strict = true → broken = true →
        Node.breaks true (cs ++ [n]) = true := by
      intro cs hcs hs hb
      rw [breaks_noise hnoise, hbroken hs hb cs hcs]
      rfl
    rw [outcome_run_cons, hstep]
    cases hframes with
    | nil =>
      refine ih .nil ?_ fun hs hb cs hcs => ?_
      · simpa using hdone.left hnoise (hnew _ rfl)
      · obtain rfl := Option.some.inj hcs
        simpa using hkeep _ rfl hs hb
    | opened proper children hrest =>
      refine ih (.opened proper ?_ hrest) hdone fun hs hb cs hcs => ?_
      · simpa using children.left hnoise (hnew _ rfl)
      · obtain rfl := Option.some.inj hcs
        simpa using hkeep _ rfl hs hb
    | owing duty comments hrest => exact ih (.owing duty comments hrest) hdone hbroken
  | @same broken t u ts us said comment rest ih =>
    intro fs gs done done' hframes hdone _
    have hmove := alike_step hframes said comment
    have hnewline := fun hb : (t.kind == .newline) = true =>
      broken_newline (beq_iff_eq.mp hb) fs done
    rw [outcome_run_cons, outcome_run_cons]
    generalize step .document fs t = move at hmove hnewline
    generalize step .document gs u = move' at hmove
    cases hmove with
    | @go fs' gs' frames => exact ih frames hdone fun _ hb => (hnewline hb).1 fs' rfl
    | @yield ns ms nodes =>
      refine ih .nil ?_ fun _ hb cs hcs => ?_
      · simpa using nodes _ _ hdone
      · obtain rfl := Option.some.inj hcs
        exact (hnewline hb).2 ns rfl
    | finished => exact .ok hdone.gists
    | fault => exact .error _ _

/-- Token lists with the same tokens but for trivia are read to trees with the same gist, or not
    read at all. -/
theorem agree_document {ts us vs : List Token} (hts : Respaced strict false ts vs)
    (hus : Respaced strict false us vs) : Agree (document ts).outcome (document us).outcome := by
  have hrun : ∀ {ws : List Token}, Respaced strict false ws vs →
      Agree (document ws).outcome (document vs).outcome := fun h =>
    agree_run h _ _ .nil (close_nil strict) (by rintro _ ⟨⟩)
  exact (hrun hts).trans (hrun hus).symm

end Reading

end CljTidy
