import HierPath.Pattern.Basic
import HierPath.Tree.Basic

/-
  Events: what the library has done, for those who follow
  along.

  An event is a value, and which events an action causes is
  read off the result of the action. A write that makes
  nodes says so once, and so does a write that replaces a
  value; the first comes before the second.

  Key definitions include:
    * `Level`
    * `Event`
    * `Event.level`
    * `Event.message`
    * `Event.line`
    * `Pattern.events`
    * `Written.events`
-/

------------------------------------------------------------
-- Events
------------------------------------------------------------

namespace HierPath

/- How much an event matters, least first. -/
inductive Level where
  | trace
  | debug
  | info
  | warn
deriving DecidableEq, Ord

namespace Level

/- The word for a level at the start of a line. -/
def label : Level → String
  | .trace => "TRACE"
  | .debug => "DEBUG"
  | .info => "INFO"
  | .warn => "WARN"

/- The level matters at least as much as another. -/
def reaches
    (level wanted : Level) : Bool :=
  (compare wanted level).isLE

end Level

/- The things that are worth telling. -/
inductive Event where
  | compiled (pattern : Path) (ops minLevels : Nat)
  | created (location : Path) (nodes : Nat)
  | replaced (location : Path)
  | repeated (key : Path) (line earlier : Nat)
  | loaded (keys nodes : Nat)
  | selected (keys total : Nat)
  | readingConfig (file : String)
deriving DecidableEq

namespace Event

/- How much each event matters. -/
def level : Event → Level
  | .compiled .. => .trace
  | .created .. => .trace
  | .replaced _ => .debug
  | .repeated .. => .warn
  | .loaded .. => .debug
  | .selected .. => .info
  | .readingConfig _ => .debug

/- The text of an event, with its particulars at the end. -/
def message : Event → String
  | .compiled pattern ops minLevels =>
      s!"compiled path pattern pattern={pattern}"
        ++ s!" ops={ops} min_levels={minLevels}"
  | .created location nodes =>
      s!"created path tree nodes path={location}"
        ++ s!" created={nodes}"
  | .replaced location =>
      s!"replaced existing path tree value path={location}"
  | .repeated key line earlier =>
      s!"Key {key} on line {line} repeats line {earlier}"
  | .loaded keys nodes =>
      s!"Loaded {keys} keys into {nodes} nodes"
  | .selected keys total =>
      s!"{keys} of {total} keys selected"
  | .readingConfig file =>
      s!"Loading config from {file}"

/- An event as one line of a log. -/
def line
    (event : Event) : String :=
  s!"{event.level.label} {event.message}"

end Event

end HierPath

------------------------------------------------------------
-- Events Of Actions
------------------------------------------------------------

namespace HierPath

universe u

namespace Pattern

/- What there is to tell about a compilation. -/
def events
    (pattern : Pattern) : List Event :=
  [.compiled pattern.source pattern.length pattern.minLevels]

end Pattern

namespace Written

variable {V : Type u}

/- What there is to tell about a write. -/
def events
    (written : Written V) : List Event :=
  (if written.created > 0 then
    [.created written.location written.created]
  else
    [])
  ++ (if written.previous.isSome then
    [.replaced written.location]
  else
    [])

end Written

end HierPath
