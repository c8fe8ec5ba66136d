/-
  The journal: messages by named sources.

  Every source has a channel.  A channel can be switched off; it has a level below which messages
  are dropped, and writes a line by each of its templates.  It gets a template the first time it is
  switched on with one that refers to a field, and then keeps it.  A set-up with another template
  fails if the channel has none yet: by then the switch and the level are set already, and they stay
  so.  The state of a channel outlives the component that set it up.

  Names with dots are nested: a message also goes to the channels of the names it extends, and a
  channel without a level takes theirs.  Every name extends the root, which is also meant when there
  is no name at all.
-/
import CljTidy.Settings

namespace CljTidy.Journal

/-! ## Channels -/

/-- The state of a source. -/
structure Channel where
  disabled : Bool := false
  level : Int := 0
  templates : List String := []
  deriving Repr, DecidableEq

/-- A channel that was never set up.  The root has a level from the start. -/
def Channel.new (name : String) : Channel := { level := if name = rootName then rootLevel else 0 }

/-- The template that a channel has, if any. -/
def Channel.template (c : Channel) : Option String := c.templates.head?

/-- Why a source could not be set up. -/
inductive SetupFault
  /-- The template refers to no field. -/
  | noReference (template : String)
  deriving Repr, DecidableEq

/-- The wording of a fault. -/
def SetupFault.message : SetupFault → String
  | noReference template => "Invalid format '" ++ Template.body template ++ "' for '%' style"

/-- Gives a channel its template, unless it has one already. -/
def Channel.attach (c : Channel) (template : String) : Except SetupFault Unit × Channel :=
  if !c.templates.isEmpty then (.ok (), c)
  else if Template.refers template then (.ok (), { c with templates := [template] })
  else (.error (.noReference template), c)

/-- Sets up a channel.  Switching it off leaves the rest as it is; switching it on sets the level
    first, which stays set even if the template is refused. -/
def Channel.setUp (c : Channel) (s : Setup) : Except SetupFault Unit × Channel :=
  if s.enabled then { c with disabled := false, level := s.level }.attach s.template
  else (.ok (), { c with disabled := true })

/-- The channels set up so far, by name. -/
abbrev Channels := List (String × Channel)

/-- The channel of a name; a new one if it was never set up. -/
def channel (channels : Channels) (name : String) : Channel :=
  (channels.lookup name).getD (.new name)

/-- Sets up a source: how that went, and the channels behind it. -/
def setUp (channels : Channels) (s : Setup) : Except SetupFault Unit × Channels :=
  let (outcome, c) := (channel channels s.source).setUp s
  (outcome, (s.source, c) :: channels.filter fun entry => entry.1 ≠ s.source)

/-- The channels after a set-up, whether it failed or not. -/
def configure (channels : Channels) (s : Setup) : Channels := (setUp channels s).2

/-! ## Writing -/

/-- The names that a name extends, nearest first: it is cut off at its dots, where the part between
    two cuts is not empty.  The name is read backwards. -/
def ancestors : List Char → List String
  | '.' :: c :: rest => String.ofList (c :: rest).reverse :: ancestors rest
  | _ :: rest => ancestors rest
  | [] => []

/-- The nearest name that a name extends and that was set up; the root is not found by its name. -/
def parent? (channels : Channels) (name : String) : Option String :=
  (ancestors name.toList.reverse).find? fun ancestor =>
    ancestor ≠ rootName && (channels.lookup ancestor).isSome

/-- A name and the names it extends, nearest first, at most `n` of them below the root. -/
def lineageFrom (channels : Channels) : Nat → String → List String
  | 0, _ => [rootName]
  | n + 1, name =>
      name ::
        match parent? channels name with
        | some parent => lineageFrom channels n parent
        | none => [rootName]

/-- A source and the sources it extends, nearest first.  An ancestor has a shorter name, so there
    are no more of them than the name has characters. -/
def lineage (channels : Channels) (name : String) : List String :=
  if name = rootName then [rootName] else lineageFrom channels name.length name

/-- The level set for a source. -/
def levelOf (channels : Channels) (name : String) : Int := (channel channels name).level

/-- The level that applies to a source: the nearest that is set. -/
def effectiveLevel (channels : Channels) (name : String) : Int :=
  (((lineage channels name).map (levelOf channels)).find? (· ≠ 0)).getD 0

/-- A message is dropped if its source is switched off, if it has no level of its own or if its
    level is below the one that applies. -/
def isDropped (channels : Channels) (m : Message) : Bool :=
  (channel channels m.source).disabled || m.level ≤ 0 || m.level < effectiveLevel channels m.source

/-- The lines a message leads to: one for each template of each source it goes to, if the template
    can be filled in. -/
def write (channels : Channels) (m : Message) (s : Surroundings := .silent) : String :=
  if isDropped channels m then ""
  else
    String.join ((lineage channels m.source).flatMap fun n =>
      (channel channels n).templates.filterMap fun template => line? s template m)

end CljTidy.Journal
