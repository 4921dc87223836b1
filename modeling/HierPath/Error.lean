import HierPath.Path.Basic
import HierPath.Pattern.Glob

/-
  The ways in which reading a path, compiling a pattern or
  looking up a key can fail.

  Key definitions include:
    * `PathError`
    * `PathError.message`
    * `PathError.messages`
-/

------------------------------------------------------------
-- Causes
------------------------------------------------------------

namespace HierPath

/-
  One constructor per cause. The raw text is the whole text
  that was read, and a key is the key that was asked for.
-/
inductive PathError where
  | empty
  | danglingEscape (raw : String)
  | aboveRoot (raw : String)
  | invalidSegment (name : String)
  | notFound (key : Path)
  | oversizedGlob (segment : String)
deriving DecidableEq

namespace PathError

/- Why a glob that compiles to too much is refused. -/
def oversizedReason : String :=
  let limit := Glob.sizeLimit
  s!"Compiled regex exceeds size limit of {limit} bytes."

/- The one line that tells a user what went wrong. -/
def message : PathError → String
  | .empty =>
      "path is empty"
  | .danglingEscape raw =>
      s!"dangling escape at end of path '{raw}'"
  | .aboveRoot raw =>
      s!"path '{raw}' climbs above its root"
  | .invalidSegment name =>
      s!"invalid path segment '{name}'"
  | .notFound key =>
      s!"no value stored at '{key}'"
  | .oversizedGlob segment =>
      s!"invalid glob segment '{segment}': {oversizedReason}"

/- What a failure is in turn due to, where that is known. -/
def reason? : PathError → Option String
  | .oversizedGlob _ => some oversizedReason
  | _ => none

/- A failure and its reason, the outermost first. -/
def messages
    (e : PathError) : List String :=
  e.message :: e.reason?.toList

end PathError

end HierPath
