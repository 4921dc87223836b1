import HierPath.Error
import HierPath.Pattern.Glob
import HierPath.Path.Parse

/-
  Path patterns. Each segment of a pattern's path becomes
  one step: `**` stands for any number of levels, a segment
  with a star in it for one level that its glob accepts, and
  any other segment for itself.

  A compiled pattern also keeps, for every position, how
  many levels the steps from there on need at least. Search
  uses it to leave out splits that cannot succeed.

  Key definitions include:
    * `Step`
    * `Step.ofSegment`
    * `Step.accepts`
    * `Pattern`
    * `Pattern.needs`
    * `Pattern.compile`
    * `Pattern.minLevels`
    * `Pattern.isLiteral`
-/

------------------------------------------------------------
-- Steps
------------------------------------------------------------

namespace HierPath

/- What one segment of a pattern stands for. -/
inductive Step where
  | recursive
  | glob (wildcard : Glob)
  | literal (name : String)
deriving DecidableEq

namespace Step

/-
  The step that a segment stands for. A segment whose glob
  is too large to compile is refused.
-/
def ofSegment
    (segment : String) : Except PathError Step :=
  if segment = "**" then
    .ok .recursive
  else if '*' ∈ segment.toList then
    let wildcard := Glob.ofSegment segment
    if wildcard.size ≤ Glob.sizeLimit then
      .ok (.glob wildcard)
    else
      .error (.oversizedGlob segment)
  else
    .ok (.literal segment)

/- The step stands for any number of levels. -/
def isRecursive : Step → Bool
  | .recursive => true
  | _ => false

/- The step stands for one level of a fixed name. -/
def isLiteral : Step → Bool
  | .literal _ => true
  | _ => false

/-
  The step accepts a single level. A recursive step is no
  test of a level, so it accepts none.
-/
def accepts
    (step : Step)
    (level : String) : Bool :=
  match step with
  | .recursive => false
  | .glob wildcard => wildcard.accepts level
  | .literal name => name = level

end Step

end HierPath

------------------------------------------------------------
-- Patterns
------------------------------------------------------------

namespace HierPath

/-
  A compiled pattern: the path it was made from, its steps,
  and the least number of levels that the steps from each
  position on need.
-/
structure Pattern where
  source : Path
  steps : List Step
  needs : Array Nat
deriving DecidableEq

namespace Pattern

/-
  For each tail of a list of steps, the longest tail first,
  the number of steps in it that stand for one level.
-/
def needsOf : List Step → List Nat
  | [] => [0]
  | step :: rest =>
      let below := needsOf rest
      let here := if step.isRecursive then 0 else 1
      (here + below.head?.getD 0) :: below

/- Compile the pattern that a path is read as. -/
def compile
    (source : Path) : Except PathError Pattern := do
  let steps ← source.segments.mapM Step.ofSegment
  return ⟨source, steps, (needsOf steps).toArray⟩

/- Read and compile a pattern that stands on its own. -/
def parse
    (raw : String) : Except PathError Pattern :=
  (Path.parse raw).bind compile

/- The spelling of the path that a pattern was made from. -/
def text
    (pattern : Pattern) : String :=
  pattern.source.text

instance : ToString Pattern where
  toString := text

/- The number of steps. -/
def length
    (pattern : Pattern) : Nat :=
  pattern.steps.length

/- The pattern has no steps. -/
def isEmpty
    (pattern : Pattern) : Bool :=
  pattern.steps.isEmpty

/- The levels needed by the steps from a position on. -/
def need
    (pattern : Pattern)
    (op : Nat) : Nat :=
  pattern.needs[op]?.getD 0

/- The least number of levels that can match. -/
def minLevels
    (pattern : Pattern) : Nat :=
  pattern.need 0

/- Every step stands for a level of a fixed name. -/
def isLiteral
    (pattern : Pattern) : Bool :=
  pattern.steps.all Step.isLiteral

end Pattern

end HierPath
