/-
  Channels after a history of requests.

  1. **Program** — `configureAll` sets up one source after the other, each as its request asks, with
     the defaults where it asks for nothing.  It goes on behind a set-up that fails, with the
     channels as that one left them.

  2. **Specification** — `Reflects`: the channel of a name is told by the set-ups of that name
     alone.  It writes by one template if any of them brought one and by none otherwise; the
     template is that of the first that did, the level that of the last that switches the source
     on; and the source is switched off if the very last one switches it off.  A set-up brings its
     template if it switches the source on and the template refers to a field (`Setup.attaches`).

  3. **Correctness** — `setUp_cases` says all that a set-up can do to a channel.  One set-up keeps
     `Reflects` for its own source (`Reflects.setUp`) and does not touch the others
     (`channel_configure_of_ne`); so does a whole history, by induction, with the requests that were
     made before as the invariant.

  4. **Failures** — which set-ups fail, and in what words, is told by the set-ups before
     (`setUp_fst`).  As long as none of a name fails, the first that switches its source on also
     brings its template (`Accepted`), and `Reflects` can be read with `Setup.enabled` alone.
-/
import CljTidy.Journal
import Mathlib.Data.List.Induction

namespace CljTidy.Journal

/-! ## One set-up -/

/-- Switched on with a template that can be used. -/
def Setup.attaches (s : Setup) : Bool := s.enabled && Template.refers s.template

/-- What a set-up can do to a channel: switch it off; switch it on, where it has a template already,
    is given one, or is refused one. -/
theorem setUp_cases (c : Channel) (s : Setup) :
    (s.enabled = false ∧ c.setUp s = (.ok (), { c with disabled := true })) ∨
    (s.enabled = true ∧ c.templates ≠ [] ∧
      c.setUp s = (.ok (), { c with disabled := false, level := s.level })) ∨
    (s.attaches = true ∧ c.templates = [] ∧
      c.setUp s = (.ok (), ⟨false, s.level, [s.template]⟩)) ∨
    (s.enabled = true ∧ s.attaches = false ∧ c.templates = [] ∧
      c.setUp s = (.error (.noReference s.template), ⟨false, s.level, []⟩)) := by
  obtain ⟨disabled, level, templates⟩ := c
  cases hon : s.enabled with
  | false => exact .inl ⟨rfl, by simp [Channel.setUp, hon]⟩
  | true =>
    right
    cases templates with
    | cons template templates =>
      exact .inl ⟨rfl, by simp, by simp [Channel.setUp, Channel.attach, hon]⟩
    | nil =>
      right
      cases hrefers : Template.refers s.template with
      | true =>
        exact .inl ⟨by simp [Setup.attaches, hon, hrefers], rfl,
          by simp [Channel.setUp, Channel.attach, hon, hrefers]⟩
      | false =>
        exact .inr ⟨rfl, by simp [Setup.attaches, hrefers], rfl,
          by simp [Channel.setUp, Channel.attach, hon, hrefers]⟩

/-- A set-up with a template that refers to a field does not fail, whatever the channels are. -/
theorem setUp_of_refers (channels : Channels) {s : Setup} (h : Template.refers s.template = true) :
    (setUp channels s).1 = .ok () := by
  show ((channel channels s.source).setUp s).1 = _
  rcases setUp_cases (channel channels s.source) s with
    ⟨-, hs⟩ | ⟨-, -, hs⟩ | ⟨-, -, hs⟩ | ⟨hon, hfails, -, -⟩
  · rw [hs]
  · rw [hs]
  · rw [hs]
  · simp [Setup.attaches, hon, h] at hfails

/-! ## The default template -/

/-- A set-up that asks for no template does not fail: the default refers to fields. -/
theorem setUp_of_no_template (channels : Channels) {r : Request} (h : r.template = none) :
    (setUp channels r.setup).1 = .ok () := by
  have hdefault : Template.refers ({} : Setup).template = true := by decide +kernel
  apply setUp_of_refers
  show Template.refers (r.template.getD _) = true
  rw [h]
  exact hdefault

/-- A field written as it is. -/
theorem fill_field (s : Surroundings) {m : Message} {field text : String}
    (h : Reference.fieldOf m field = some text) :
    Template.Piece.fill s m (.reference ⟨some field, [], none, none, 's'⟩) = some text := by
  show (((Reference.fieldOf m field).map (Reference.justified [] 0)).or _) = _
  rw [h]
  simp [Reference.justified]

/-- The line by the default template needs nothing but the message. -/
theorem line?_default (s : Surroundings) (m : Message) :
    line? s ({} : Setup).template m =
      some (m.source ++ " - " ++ levelName m.level ++ " - " ++ m.text ++ "\n") := by
  let text (field : String) : Template.Piece := .reference ⟨some field, [], none, none, 's'⟩
  let dash : List Template.Piece := [.literal ' ', .literal '-', .literal ' ']
  have hpieces : (Template.pieces? ({} : Setup).template).map Template.behindStamp =
      some (text "name" :: dash ++ text "levelname" :: dash ++ [text "message"]) := by
    decide +kernel
  obtain ⟨pieces, hread, hbehind⟩ := Option.map_eq_some_iff.mp hpieces
  have hfilled : (Template.behindStamp pieces).mapM (Template.Piece.fill s m) =
      some [m.source, " ", "-", " ", levelName m.level, " ", "-", " ", m.text] := by
    have hname : Template.Piece.fill s m (text "name") = some m.source := fill_field s rfl
    have hlevel : Template.Piece.fill s m (text "levelname") = some (levelName m.level) :=
      fill_field s rfl
    have htext : Template.Piece.fill s m (text "message") = some m.text := fill_field s rfl
    have hliteral (c : Char) : Template.Piece.fill s m (.literal c) = some c.toString := rfl
    rw [hbehind]
    simp [dash, hname, hlevel, htext, hliteral]
  have hdash : " - " = " " ++ "-" ++ " " := rfl
  rw [line?, hread, Option.bind_some, hfilled, hdash]
  simp only [Option.map_some, String.join_cons, String.join_nil, String.append_assoc,
    String.append_empty]

/-! ## Channels by name -/

theorem lookup_filter_ne {channels : Channels} {name other : String} (h : name ≠ other) :
    (channels.filter fun entry => entry.1 ≠ other).lookup name = channels.lookup name := by
  induction channels with
  | nil => rfl
  | cons entry channels ih =>
    obtain ⟨key, c⟩ := entry
    by_cases hkey : key = other
    · subst hkey
      rw [List.filter_cons_of_neg (by simp), ih, List.lookup_cons, beq_false_of_ne h]
    · rw [List.filter_cons_of_pos (by simpa using hkey), List.lookup_cons, List.lookup_cons, ih]

/-- A set-up goes to the channel of its source, -/
theorem channel_configure_self (channels : Channels) (s : Setup) :
    channel (configure channels s) s.source = ((channel channels s.source).setUp s).2 := by
  simp [channel, configure, setUp]

/-- and leaves the others as they are, whether it fails or not. -/
theorem channel_configure_of_ne (channels : Channels) {s : Setup} {name : String}
    (h : s.source ≠ name) : channel (configure channels s) name = channel channels name := by
  show (List.lookup name (_ :: _)).getD _ = _
  rw [List.lookup_cons, beq_false_of_ne h.symm]
  exact congrArg (Option.getD · _) (lookup_filter_ne h.symm)

/-! ## Histories -/

/-- The channels after a history of requests, the oldest first. -/
def configureAll (history : List Request) : Channels :=
  history.foldl (fun channels r => configure channels r.setup) []

theorem configureAll_concat (history : List Request) (r : Request) :
    configureAll (history ++ [r]) = configure (configureAll history) r.setup := by
  simp [configureAll]

/-- The set-ups of a source, the oldest first. -/
def setupsOf (name : String) (history : List Request) : List Setup :=
  (history.map Request.setup).filter fun s => s.source = name

theorem setupsOf_concat_self (history : List Request) (r : Request) :
    setupsOf r.setup.source (history ++ [r]) =
      setupsOf r.setup.source history ++ [r.setup] := by
  simp [setupsOf]

theorem setupsOf_concat_of_ne {history : List Request} {r : Request} {name : String}
    (h : r.setup.source ≠ name) : setupsOf name (history ++ [r]) = setupsOf name history := by
  simp [setupsOf, h]

/-- What the set-ups of a source make of its channel, where some of them bring a template. -/
structure Reflects (brings : Setup → Bool) (name : String) (setups : List Setup) (c : Channel) :
    Prop where
  /-- There is one template at most. -/
  count : c.templates.length = if setups.any brings then 1 else 0
  /-- The first that is brought stays. -/
  template : c.template = (setups.find? brings).map Setup.template
  /-- A set-up whose template is refused has set the level, too. -/
  level : c.level =
    match (setups.filter Setup.enabled).getLast? with
    | some s => s.level
    | none => if name = rootName then rootLevel else 0
  disabled : c.disabled = (setups.getLast?.map fun s => !s.enabled).getD false

section

variable {brings : Setup → Bool} {name : String} {setups : List Setup} {c : Channel}

theorem reflects_new (name : String) : Reflects brings name [] (.new name) :=
  ⟨rfl, rfl, rfl, rfl⟩

/-- A channel is without a template exactly if none was brought. -/
theorem Reflects.templates_eq_nil_iff (h : Reflects brings name setups c) :
    c.templates = [] ↔ setups.any brings = false := by
  have hcount := h.count
  rw [← List.length_eq_zero_iff, hcount]
  cases setups.any brings <;> simp

/-- **One more set-up.**  Switching off touches nothing else.  Switching on sets the level; what
    becomes of the template depends on whether one was brought before. -/
theorem Reflects.setUp (h : Reflects Setup.attaches name setups c) (s : Setup) :
    Reflects Setup.attaches name (setups ++ [s]) (c.setUp s).2 := by
  have hnone := h.templates_eq_nil_iff
  have htemplate := h.template
  rcases setUp_cases c s with
    ⟨hoff, hs⟩ | ⟨hon, hsome, hs⟩ | ⟨hbrings, hempty, hs⟩ | ⟨hon, hrefused, hempty, hs⟩
  · -- Switched off: nothing is attached, and the level stays.
    have hnot : s.attaches = false := by simp [Setup.attaches, hoff]
    rw [hs]
    exact
      { count := by simpa [hnot] using h.count
        template := by simpa [Channel.template, hnot, List.find?_append] using htemplate
        level := by simpa [hoff] using h.level
        disabled := by simp [hoff] }
  · -- A template is there already: the first set-up that attached one is the same as before.
    have hany : setups.any Setup.attaches = true := by simpa using mt hnone.mpr hsome
    obtain ⟨first, hfirst⟩ := Option.isSome_iff_exists.mp (List.find?_isSome.mpr
      (List.any_eq_true.mp hany))
    rw [hs]
    refine ⟨?_, ?_, by simp [hon], by simp [hon]⟩
    · simpa [hany] using h.count
    · simpa [Channel.template, List.find?_append, hfirst] using htemplate
  · -- This set-up is the first one that attaches a template.
    have hon : s.enabled = true := (Bool.and_eq_true_iff.mp hbrings).1
    have hfirst : setups.find? Setup.attaches = none := by
      simpa [List.find?_eq_none] using hnone.mp hempty
    rw [hs]
    refine ⟨?_, ?_, by simp [hon], by simp [hon]⟩
    · simp [hbrings]
    · simp [Channel.template, List.find?_append, hfirst, hbrings]
  · -- It fails: still no set-up has attached a template.
    have hany : (setups ++ [s]).any Setup.attaches = false := by
      simpa [hrefused] using hnone.mp hempty
    have hfirst : (setups ++ [s]).find? Setup.attaches = none := by
      simpa [List.find?_eq_none] using hany
    rw [hs]
    refine ⟨?_, ?_, by simp [hon], by simp [hon]⟩
    · rw [hany]
      rfl
    · rw [hfirst]
      rfl

/-- **Failures.**  A set-up fails, with the template in its message, if it switches its source on
    with a template that refers to no field and none was brought before. -/
theorem Reflects.setUp_fst (h : Reflects Setup.attaches name setups c) (s : Setup) :
    (c.setUp s).1 =
      if s.enabled && !(setups ++ [s]).any Setup.attaches then .error (.noReference s.template)
      else .ok () := by
  have hnone := h.templates_eq_nil_iff
  rw [List.any_append, List.any_cons, List.any_nil, Bool.or_false]
  rcases setUp_cases c s with
    ⟨hoff, hs⟩ | ⟨hon, hsome, hs⟩ | ⟨hbrings, hempty, hs⟩ | ⟨hon, hrefused, hempty, hs⟩
  · rw [hs, hoff]
    rfl
  · have hany : setups.any Setup.attaches = true := by simpa using mt hnone.mpr hsome
    rw [hs, hany, Bool.true_or, Bool.not_true, Bool.and_false]
    rfl
  · rw [hs, hbrings, Bool.or_true, Bool.not_true, Bool.and_false]
    rfl
  · rw [hs, hon, hnone.mp hempty, hrefused]
    rfl

/-- The first set-up that switches its source on, if any, brings its template. -/
def Accepted (setups : List Setup) : Prop :=
  setups.find? Setup.enabled = setups.find? Setup.attaches

/-- Then it does not matter which templates refer to fields. -/
theorem Reflects.enabled (h : Reflects Setup.attaches name setups c) (hfirst : Accepted setups) :
    Reflects Setup.enabled name setups c where
  count := by rw [← List.isSome_find?, hfirst, List.isSome_find?, h.count]
  template := by rw [hfirst, h.template]
  level := h.level
  disabled := h.disabled

/-- A set-up that does not fail keeps it so. -/
theorem Reflects.accepted_concat (h : Reflects Setup.attaches name setups c) {s : Setup}
    (hfirst : Accepted setups) (hs : (c.setUp s).1 = .ok ()) : Accepted (setups ++ [s]) := by
  rw [h.setUp_fst] at hs
  unfold Accepted at *
  rw [List.find?_append, List.find?_append, hfirst]
  cases hold : setups.find? Setup.attaches with
  | some first => rfl
  | none =>
    have hany : setups.any Setup.attaches = false := by
      simpa [List.find?_eq_none] using hold
    rw [List.any_append, hany, List.any_cons, List.any_nil, Bool.or_false, Bool.false_or] at hs
    show [s].find? Setup.enabled = [s].find? Setup.attaches
    rw [List.find?_singleton, List.find?_singleton]
    cases hon : s.enabled with
    | false => simp [Setup.attaches, hon]
    | true =>
      cases hbrings : s.attaches with
      | true => rfl
      | false => simp [hon, hbrings] at hs

end

/-- **A whole history.**  Induction on the history, taken apart at its end: the last request sets up
    this source or another one. -/
theorem reflects_configureAll (history : List Request) (name : String) :
    Reflects Setup.attaches name (setupsOf name history) (channel (configureAll history) name) := by
  induction history using List.reverseRecOn with
  | nil => exact reflects_new name
  | append_singleton history r ih =>
    rw [configureAll_concat]
    by_cases hsource : r.setup.source = name
    · subst hsource
      rw [setupsOf_concat_self, channel_configure_self]
      exact ih.setUp r.setup
    · rw [setupsOf_concat_of_ne hsource, channel_configure_of_ne _ hsource]
      exact ih

/-- No set-up of a source failed. -/
def NoneFailed (name : String) (history : List Request) : Prop :=
  ∀ (n : Nat) (hn : n < history.length), history[n].setup.source = name →
    (setUp (configureAll (history.take n)) history[n].setup).1 = .ok ()

/-- Then none had failed before the last request, -/
theorem NoneFailed.before {name : String} {history : List Request} {r : Request}
    (h : NoneFailed name (history ++ [r])) : NoneFailed name history := by
  intro n hn hsource
  have hlast := h n (by simp; omega)
  rw [List.getElem_append_left hn, List.take_append_of_le_length (Nat.le_of_lt hn)] at hlast
  exact hlast hsource

/-- nor did the last itself. -/
theorem NoneFailed.last {name : String} {history : List Request} {r : Request}
    (h : NoneFailed name (history ++ [r])) (hsource : r.setup.source = name) :
    (setUp (configureAll history) r.setup).1 = .ok () := by
  have hlast := h history.length (by simp)
  rw [List.getElem_concat_length rfl, List.take_left] at hlast
  exact hlast hsource

/-- **A history without failures.**  The same induction: a set-up that goes well brings its template
    if it is the first to switch the source on. -/
theorem accepted_of_noneFailed {history : List Request} {name : String}
    (h : NoneFailed name history) : Accepted (setupsOf name history) := by
  induction history using List.reverseRecOn with
  | nil => rfl
  | append_singleton history r ih =>
    by_cases hsource : r.setup.source = name
    · subst hsource
      rw [setupsOf_concat_self]
      exact (reflects_configureAll history _).accepted_concat (ih h.before) (h.last rfl)
    · rw [setupsOf_concat_of_ne hsource]
      exact ih h.before

/-- **Channels.**  After every history of requests the channel of every name is what the set-ups of
    that name make of it.  As long as none of them failed, each that switches the source on counts
    as one that brings its template.  One more request fails exactly if it switches its source on
    while no template was brought yet, its own included, and it changes no other channel. -/
theorem channel_of_history (history : List Request) :
    (∀ name,
      Reflects Setup.attaches name (setupsOf name history) (channel (configureAll history) name)) ∧
    (∀ name, NoneFailed name history →
      Reflects Setup.enabled name (setupsOf name history) (channel (configureAll history) name)) ∧
    ∀ r : Request,
      ((setUp (configureAll history) r.setup).1 =
        if r.setup.enabled && !(setupsOf r.setup.source (history ++ [r])).any Setup.attaches then
          .error (.noReference r.setup.template)
        else .ok ()) ∧
      ∀ name, r.setup.source ≠ name →
        channel (configureAll (history ++ [r])) name = channel (configureAll history) name := by
  refine ⟨reflects_configureAll history, ?_, ?_⟩
  · intro name hnone
    exact (reflects_configureAll history name).enabled (accepted_of_noneFailed hnone)
  · intro r
    constructor
    · rw [setupsOf_concat_self]
      exact (reflects_configureAll history r.setup.source).setUp_fst r.setup
    · intro name hsource
      rw [configureAll_concat]
      exact channel_configure_of_ne _ hsource

/-- Switched off, then on, then on again: one template, the first; the level of the last.  Another
    source, set up in between with a template that refers to no field, is left without one. -/
theorem channel_of_history_thrice :
    let history : List Request :=
      [{ name := some "x", enabled := some false, level := some 50 },
        { name := some "x", level := some 20, template := some "%(message)s" },
        { name := some "x", template := some "%(name)s" }]
    let refused : Request := { name := some "y", level := some 40, template := some "hello" }
    NoneFailed "x" history ∧ refused.setup.source ≠ "x" ∧
      Reflects Setup.enabled "x" (setupsOf "x" history) ⟨false, debug, ["%(message)s"]⟩ ∧
      (setUp (configureAll history) refused.setup).1 = .error (.noReference "hello") ∧
      Reflects Setup.attaches "y" [refused.setup] ⟨false, error, []⟩ ∧
      channel (configureAll (history ++ [refused])) "x" = ⟨false, debug, ["%(message)s"]⟩ := by
  intro history refused
  have hmessage : Template.refers "%(message)s" = true := by decide +kernel
  have hname : Template.refers "%(name)s" = true := by decide +kernel
  have hnone : NoneFailed "x" history := by
    intro n hn _
    match n with
    | 0 => rfl
    | 1 => exact setUp_of_refers _ hmessage
    | 2 => exact setUp_of_refers _ hname
  have hsource : refused.setup.source ≠ "x" := by decide
  -- What the channels are in fact, evaluated.
  have hx : channel (configureAll history) "x" = ⟨false, debug, ["%(message)s"]⟩ := by
    decide +kernel
  have hy : channel (configureAll (history ++ [refused])) "y" = ⟨false, error, []⟩ := by
    decide +kernel
  have hcondition : (refused.setup.enabled &&
      !(setupsOf "y" (history ++ [refused])).any Setup.attaches) = true := by decide +kernel
  obtain ⟨-, henabled, hnext⟩ := channel_of_history history
  refine ⟨hnone, hsource, ?_, ?_, ?_, ?_⟩
  · rw [← hx]
    exact henabled "x" hnone
  · exact (hnext refused).1.trans (if_pos hcondition)
  · rw [← hy]
    exact (channel_of_history (history ++ [refused])).1 "y"
  · rw [← hx]
    exact (hnext refused).2 "x" hsource

end CljTidy.Journal
