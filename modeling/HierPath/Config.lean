import HierPath.Path.Parse
import HierPath.Toml.Document

/-
  Settings of the command line, read from a TOML document.

  There are two sections. `paths` has the context that
  relative paths are read against; `output` says whether
  output is colored and whether the values of keys are
  shown. Settings that are missing have their defaults, and
  unknown settings and sections are passed over.

  A section may also be given as an array of its settings
  in their order.

  Key definitions include:
    * `Config`
    * `ConfigError`
    * `Config.setting?`
    * `Config.ofFields`
    * `Config.parse`
-/

------------------------------------------------------------
-- Settings
------------------------------------------------------------

namespace HierPath

/- The settings, with their defaults. -/
structure Config where
  context : Option Path := none
  color : Bool := true
  showValues : Bool := false
deriving DecidableEq

/- Why settings cannot be read. -/
inductive ConfigError where
  | syntaxError (cause : Toml.SyntaxError)
  | wrongType (name : String)
  | invalidContext (cause : PathError)
deriving DecidableEq

namespace ConfigError

/- The first message for all failures of this kind. -/
def headline : String :=
  "Invalid spath.toml"

/- What in particular went wrong. -/
def detail : ConfigError → String
  | .syntaxError cause => cause.message
  | .wrongType name => s!"wrong type of value for {name}"
  | .invalidContext cause => cause.message

/- The messages of a failure, the outermost first. -/
def messages
    (e : ConfigError) : List String :=
  [headline, e.detail]

end ConfigError

end HierPath

------------------------------------------------------------
-- Reading Settings
------------------------------------------------------------

namespace HierPath

namespace Config

/-
  A setting of a section by its name, or by its position
  where the section is an array. A moment holds no settings
  of its own. Other values are no sections.
-/
def setting?
    (name : String)
    (position : Nat) :
    Toml.Value → Option (Option Toml.Value)
  | .table _ fields => some (fields.lookup name)
  | .array elements => some elements[position]?
  | .tables elements =>
      some (elements[position]?.map (.table .header))
  | .moment _ => some none
  | _ => none

/- Look up a setting, which need not be there. -/
def find
    (fields : Toml.Fields)
    (area name : String)
    (position : Nat) :
    Except ConfigError (Option Toml.Value) :=
  match fields.lookup area with
  | none => .ok none
  | some value =>
      match setting? name position value with
      | none => .error (.wrongType area)
      | some setting => .ok setting

/- Read a path that may be missing. -/
def readPath
    (name : String) :
    Option Toml.Value → Except ConfigError (Option Path)
  | none => .ok none
  | some (.text raw) =>
      ((Path.parse raw).mapError .invalidContext).map some
  | some _ => .error (.wrongType name)

/- Read a truth value that may be missing. -/
def readFlag
    (name : String)
    (default : Bool) :
    Option Toml.Value → Except ConfigError Bool
  | none => .ok default
  | some (.boolean value) => .ok value
  | some _ => .error (.wrongType name)

/- The settings that the fields of a document give. -/
def ofFields
    (fields : Toml.Fields) : Except ConfigError Config := do
  let defaults : Config := {}
  let context ← find fields "paths" "context" 0
  let color ← find fields "output" "color" 0
  let showValues ← find fields "output" "show_values" 1
  return {
    context := ← readPath "context" context
    color := ← readFlag "color" defaults.color color
    showValues :=
      ← readFlag "show_values" defaults.showValues showValues }

/- Read settings from the text of a document. -/
def parse
    (content : String) : Except ConfigError Config := do
  let fields ← (Toml.parse content).mapError .syntaxError
  ofFields fields

end Config

end HierPath
