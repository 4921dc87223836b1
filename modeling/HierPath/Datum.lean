import HierPath.Pattern.Basic

/-
  Paths and patterns inside structured data.

  A path or pattern is stored as a text, namely its
  spelling. Only the outer shape of other data is kept,
  which is what a message about them needs.

  Key definitions include:
    * `Datum`
    * `DatumError`
    * `Path.ofDatum`
    * `Path.toDatum`
    * `Pattern.ofDatum`
    * `Pattern.toDatum`
-/

------------------------------------------------------------
-- Data
------------------------------------------------------------

namespace HierPath

/- A piece of structured data, seen from outside. -/
inductive Datum where
  | null
  | boolean (value : Bool)
  | integer (value : Int)
  | text (value : String)
  | sequence
  | map
deriving DecidableEq

namespace Datum

/- What a message calls a piece of data. -/
def describe : Datum → String
  | .null => "null"
  | .boolean value => s!"boolean `{value}`"
  | .integer value => s!"integer `{value}`"
  | .text value => s!"string \"{value}\""
  | .sequence => "sequence"
  | .map => "map"

end Datum

/- Why a piece of data is not the one that is asked for. -/
inductive DatumError where
  | wrongType (found : Datum)
  | unreadable (cause : PathError)
deriving DecidableEq

namespace DatumError

/- The one line that tells a user what went wrong. -/
def message : DatumError → String
  | .wrongType found =>
      s!"invalid type: {found.describe}, expected a string"
  | .unreadable cause => cause.message

end DatumError

end HierPath

------------------------------------------------------------
-- Reading And Storing
------------------------------------------------------------

namespace HierPath

namespace Datum

/- Read a text by a given rule, and nothing but a text. -/
def readText
    {α : Type}
    (read : String → Except PathError α) :
    Datum → Except DatumError α
  | .text raw => (read raw).mapError .unreadable
  | found => .error (.wrongType found)

end Datum

namespace Path

/- The path that a piece of data stores. -/
def ofDatum : Datum → Except DatumError Path :=
  Datum.readText parse

/- A path is stored as its spelling. -/
def toDatum
    (p : Path) : Datum :=
  .text p.text

end Path

namespace Pattern

/- The pattern that a piece of data stores. -/
def ofDatum : Datum → Except DatumError Pattern :=
  Datum.readText parse

/- A pattern is stored as its spelling. -/
def toDatum
    (pattern : Pattern) : Datum :=
  .text pattern.text

end Pattern

end HierPath
