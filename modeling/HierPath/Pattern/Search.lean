import HierPath.Pattern.Basic

/-
  The search for a way in which the steps of a pattern fit
  a list of levels.

  A place is a pair of a step position and a level position.
  Single-level steps are walked in line. A recursive step
  branches: it tries every place behind it that leaves
  enough levels for the steps to come. A table remembers
  the places from which the search has failed, so no place
  is walked from twice, however many recursive steps a
  pattern has.

  The memory of a search also keeps a record of its work:
  the places that were walked from and the tests of a step
  against a level, the latest first. Answers never depend
  on the record; it makes bounds on the work statable.

  Key definitions include:
    * `Memory`
    * `Memory.key`
    * `Search.attempt`
    * `Search.trySplits`
    * `Search.testLevel`
    * `Search.branch`
    * `Search.walk`
    * `Pattern.search`
    * `Pattern.isMatchLevels`
    * `Pattern.isMatchFrom`
    * `Pattern.isMatch`
    * `Pattern.select`
-/

------------------------------------------------------------
-- Memory Of A Search
------------------------------------------------------------

namespace HierPath

/-
  The memory of a search: which places have failed, kept in
  rows of one width, and the record of the work done.
-/
structure Memory where
  width : Nat
  failed : Array Bool
  walked : List (Nat × Nat)
  tested : List (Nat × Nat)

namespace Memory

/- The memory at the start, for so many steps and levels. -/
def fresh
    (steps levels : Nat) : Memory where
  width := levels + 1
  failed := Array.replicate ((steps + 1) * (levels + 1)) false
  walked := []
  tested := []

/- Where the table keeps a place. -/
def key
    (memory : Memory)
    (op cursor : Nat) : Nat :=
  op * memory.width + cursor

/- The search is known to fail from a place. -/
def hasFailed
    (memory : Memory)
    (op cursor : Nat) : Bool :=
  memory.failed[memory.key op cursor]?.getD false

/- Remember that the search fails from a place. -/
def fail
    (memory : Memory)
    (op cursor : Nat) : Memory :=
  let key := memory.key op cursor
  { memory with failed := memory.failed.setIfInBounds key true }

/- Record that the search walks from a place. -/
def noteWalk
    (memory : Memory)
    (op cursor : Nat) : Memory :=
  { memory with walked := (op, cursor) :: memory.walked }

/- Record that a step is tested against a level. -/
def noteTest
    (memory : Memory)
    (op cursor : Nat) : Memory :=
  { memory with tested := (op, cursor) :: memory.tested }

end Memory

end HierPath

------------------------------------------------------------
-- Search
------------------------------------------------------------

namespace HierPath

namespace Search

/-
  A search from a level position on: the levels from there,
  the position, and the memory go in; the answer and the
  memory come out.
-/
abbrev Goal :=
  List String → Nat → Memory → Bool × Memory

/-
  Search from a place unless it is known to fail, and
  remember a failure.
-/
def attempt
    (goal : Goal)
    (op : Nat) : Goal :=
  fun levels cursor memory =>
    if memory.hasFailed op cursor then
      (false, memory)
    else
      match goal levels cursor (memory.noteWalk op cursor) with
      | (true, memory) => (true, memory)
      | (false, memory) => (false, memory.fail op cursor)

/-
  Try `count` places, one level further on each time, until
  the search succeeds from one of them.
-/
def trySplits
    (goal : Goal) : Nat → Goal
  | 0, _, _, memory => (false, memory)
  | count + 1, levels, cursor, memory =>
      match goal levels cursor memory with
      | (true, memory) => (true, memory)
      | (false, memory) =>
          trySplits goal count levels.tail (cursor + 1) memory

/-
  Test a step against the first level, and search for the
  steps after it from the level after that.
-/
def testLevel
    (step : Step)
    (op : Nat)
    (after : Goal) : Goal
  | [], _, memory => (false, memory)
  | level :: levels, cursor, memory =>
      let memory := memory.noteTest op cursor
      if step.accepts level then
        after levels (cursor + 1) memory
      else
        (false, memory)

/-
  Let a recursive step take levels while enough of all
  `total` levels are left for the steps from the position
  `op` on, which `after` searches for.
-/
def branch
    (need total op : Nat)
    (after : Goal) : Goal :=
  fun levels cursor memory =>
    if total < need then
      (false, memory)
    else
      trySplits (attempt after op)
        (total - need + 1 - cursor) levels cursor memory

/-
  Walk the steps from the position `op` on. Without steps
  no level may be left. A recursive step at the end takes
  all levels that are left.
-/
def walk
    (needs : Array Nat)
    (total : Nat) : List Step → Nat → Goal
  | [], _, levels, _, memory => (levels.isEmpty, memory)
  | step :: rest, op, levels, cursor, memory =>
      if !step.isRecursive then
        testLevel step op (walk needs total rest (op + 1))
          levels cursor memory
      else if rest.isEmpty then
        (true, memory)
      else
        branch (needs[op + 1]?.getD 0) total (op + 1)
          (walk needs total rest (op + 1))
          levels cursor memory

end Search

end HierPath

------------------------------------------------------------
-- Matching
------------------------------------------------------------

namespace HierPath

namespace Pattern

/- A full search over levels, with the memory it leaves. -/
def search
    (pattern : Pattern)
    (levels : List String) : Bool × Memory :=
  Search.attempt
    (Search.walk pattern.needs levels.length pattern.steps 0)
    0 levels 0
    (Memory.fresh pattern.length levels.length)

/-
  The pattern matches bare levels, whatever its anchor. Too
  few levels are turned down without a search.
-/
def isMatchLevels
    (pattern : Pattern)
    (levels : List String) : Bool :=
  if levels.length < pattern.minLevels then
    false
  else
    (pattern.search levels).1

/-
  The pattern matches the segments of a path from the
  position `start` on. The anchors have to agree, and the
  position may be at the end of the path but not past it.
-/
def isMatchFrom
    (pattern : Pattern)
    (candidate : Path)
    (start : Nat) : Bool :=
  candidate.anchor = pattern.source.anchor
    && start ≤ candidate.depth
    && pattern.isMatchLevels (candidate.segments.drop start)

/- The pattern matches a whole path. -/
def isMatch
    (pattern : Pattern)
    (candidate : Path) : Bool :=
  pattern.isMatchFrom candidate 0

/- The paths that match, in the order given. -/
def select
    (pattern : Pattern)
    (candidates : List Path) : List Path :=
  candidates.filter pattern.isMatch

end Pattern

end HierPath
