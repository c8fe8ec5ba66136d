/-
  Settings over defaults.

  The defaults say which settings there are and in which order; a given value replaces the default
  of the same name, and given values without a default are ignored.

  The settings of a source in the journal are its name, a switch, a level and a template
  (`Journal.Setup`).  A component asks for some of them (`Journal.Request`), and what it leaves out
  is as by default (`Journal.settings_setup`).
-/
import CljTidy.Journal.Line

namespace CljTidy

/-- The defaults with the given values in their places. -/
def Settings.resolve {α : Type} (given defaults : List (String × α)) : List (String × α) :=
  defaults.map fun (name, value) => (name, (given.lookup name).getD value)

namespace Journal

/-- The name of the root. -/
def rootName : String := "root"

/-- How a component sets up its source. -/
structure Setup where
  name : String := "clj_sculptor"
  enabled : Bool := true
  level : Int := debug
  template : String := "%(asctime)s - %(name)s - %(levelname)s - %(message)s"
  deriving Repr, DecidableEq

/-- The source that a component sets up: the root if it gives no name. -/
def Setup.source (s : Setup) : String := if s.name = "" then rootName else s.name

/-- What a component asks for; what it leaves out is set up as by default. -/
structure Request where
  name : Option String := none
  enabled : Option Bool := none
  level : Option Int := none
  template : Option String := none
  deriving Repr, DecidableEq

/-- The set-up that a request comes to. -/
def Request.setup (r : Request) : Setup :=
  let default : Setup := {}
  { name := r.name.getD default.name
    enabled := r.enabled.getD default.enabled
    level := r.level.getD default.level
    template := r.template.getD default.template }

/-! ## Requests as settings -/

/-- What can be given for a setting. -/
inductive Value
  | text (s : String)
  | flag (b : Bool)
  | number (n : Int)
  deriving Repr, DecidableEq

/-- A set-up as settings. -/
def Setup.settings (s : Setup) : List (String × Value) :=
  [("name", .text s.name), ("is_enabled", .flag s.enabled), ("level", .number s.level),
    ("format", .text s.template)]

/-- The settings that a request gives. -/
def Request.settings (r : Request) : List (String × Value) :=
  [r.name.map fun s => ("name", .text s), r.enabled.map fun b => ("is_enabled", .flag b),
    r.level.map fun n => ("level", .number n),
    r.template.map fun s => ("format", .text s)].filterMap id

/-- A request comes to what it gives over the defaults. -/
theorem settings_setup (r : Request) :
    r.setup.settings = Settings.resolve r.settings (Setup.settings {}) := by
  obtain ⟨name, enabled, level, template⟩ := r
  cases name <;> cases enabled <;> cases level <;> cases template <;> rfl

end Journal

end CljTidy
