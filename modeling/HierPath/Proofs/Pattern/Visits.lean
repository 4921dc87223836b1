import HierPath.Proofs.Pattern.Memory

/-
  The stages that a search comes to: the attempts that it
  makes and the places that its walks reach, each with the
  memory that is found there.

  The stages are given by steps of the search, each from an
  earlier one. What a step keeps therefore holds at every
  stage: places are in range, and the table holds failures
  only.

  Key definitions include:
    * `Search.Phase`
    * `Pattern.attemptFrom`
    * `Pattern.walkFrom`
    * `Pattern.branchFrom`
    * `Pattern.Visits`

  Key theorems include:
    * `Pattern.Visits.sound`
    * `Pattern.Visits.behind`
    * `Pattern.walkFrom_of_single`
    * `Pattern.branchFrom_of_room`
-/

------------------------------------------------------------
-- Stages Of A Search
------------------------------------------------------------

namespace HierPath

namespace Search

/-
  Either the search is about to try a place, or a walk has
  come to it.
-/
inductive Phase where
  | attempt
  | walk

end Search

namespace Pattern

open Search (Phase)

/- Walk the steps from a place on. -/
def walkFrom
    (pattern : Pattern)
    (levels : List String)
    (op cursor : Nat)
    (memory : Memory) : Bool × Memory :=
  Search.walk pattern.needs levels.length
    (pattern.steps.drop op) op
    (levels.drop cursor) cursor memory

/- Search from a place on, unless it is known to fail. -/
def attemptFrom
    (pattern : Pattern)
    (levels : List String)
    (op cursor : Nat)
    (memory : Memory) : Bool × Memory :=
  Search.attempt
    (Search.walk pattern.needs levels.length
      (pattern.steps.drop op) op)
    op (levels.drop cursor) cursor memory

/-
  Search from a place on, and from those after it that leave
  enough levels, until the search succeeds.
-/
def branchFrom
    (pattern : Pattern)
    (levels : List String)
    (op cursor : Nat)
    (memory : Memory) : Bool × Memory :=
  Search.branch (pattern.need op) levels.length op
    (Search.walk pattern.needs levels.length
      (pattern.steps.drop op) op)
    (levels.drop cursor) cursor memory

/-
  The stages that a match of levels comes to, with the
  memory found there. The match begins with an attempt at
  the first step. An attempt that is not known to fail
  starts a walk, and a walk goes on behind a level that its
  step accepts. At a recursive step it attempts the first
  place that leaves enough levels for the steps behind it,
  and after every attempt that fails the next.
-/
inductive Visits
    (pattern : Pattern)
    (levels : List String) :
    Phase → Nat → Nat → Memory → Prop where
  | start
      (hEnough : pattern.minLevels ≤ levels.length) :
      Visits pattern levels .attempt 0 0
        (Memory.fresh pattern.length levels.length)
  | enter
      {op cursor : Nat}
      {memory : Memory}
      (hVisits :
        Visits pattern levels .attempt op cursor memory)
      (hNew : memory.hasFailed op cursor = false) :
      Visits pattern levels .walk op cursor
        (memory.noteWalk op cursor)
  | advance
      {op cursor : Nat}
      {memory : Memory}
      {step : Step}
      {level : String}
      (hVisits :
        Visits pattern levels .walk op cursor memory)
      (hStep : pattern.steps[op]? = some step)
      (hSingle : step.isRecursive = false)
      (hLevel : levels[cursor]? = some level)
      (hAccepts : step.accepts level = true) :
      Visits pattern levels .walk (op + 1) (cursor + 1)
        (memory.noteTest op cursor)
  | split
      {op cursor : Nat}
      {memory : Memory}
      {step : Step}
      (hVisits :
        Visits pattern levels .walk op cursor memory)
      (hStep : pattern.steps[op]? = some step)
      (hRecursive : step.isRecursive = true)
      (hMore : op + 1 < pattern.length)
      (hRoom :
        cursor + pattern.need (op + 1) ≤ levels.length) :
      Visits pattern levels .attempt (op + 1) cursor memory
  | retry
      {op cursor : Nat}
      {memory after : Memory}
      (hVisits :
        Visits pattern levels .attempt (op + 1) cursor
          memory)
      (hFailed :
        pattern.attemptFrom levels (op + 1) cursor memory =
          (false, after))
      (hRoom :
        cursor + 1 + pattern.need (op + 1) ≤
          levels.length) :
      Visits pattern levels .attempt (op + 1) (cursor + 1)
        after

end Pattern

end HierPath

------------------------------------------------------------
-- What Holds At Every Stage
------------------------------------------------------------

namespace HierPath

namespace Pattern

open Search (Phase)

variable {source : Path}
variable {pattern : Pattern}
variable {levels : List String}
variable {phase : Phase}
variable {op cursor : Nat}
variable {memory : Memory}

/- Walks of a compiled pattern decide what is left. -/
theorem decides_walkFrom
    (hCompile : compile source = .ok pattern)
    (levels : List String)
    {op : Nat}
    (hOp : op ≤ pattern.length) :
    Search.Decides pattern.steps levels
      (pattern.steps.drop op)
      (Search.walk pattern.needs levels.length
        (pattern.steps.drop op) op) :=
  Search.decides_walk
    (fun _ hLess => needs_of_compile hCompile hLess) hOp rfl

/- Attempts of a compiled pattern decide what is left. -/
theorem answers_attemptFrom
    (hCompile : compile source = .ok pattern)
    (hOp : op ≤ pattern.length)
    (hCursor : cursor ≤ levels.length)
    (hMemory : memory.Sound pattern.steps levels) :
    Search.Answers pattern.steps levels
      (pattern.attemptFrom levels op cursor memory)
      (Fits (pattern.steps.drop op)
        (levels.drop cursor)) :=
  Search.decides_attempt hOp
    (decides_walkFrom hCompile levels hOp)
    cursor hCursor memory hMemory

/-
  At every stage, the place is in range and the memory holds
  failures only.
-/
theorem Visits.sound
    (hCompile : compile source = .ok pattern)
    (hVisits :
      pattern.Visits levels phase op cursor memory) :
    op ≤ pattern.length ∧ cursor ≤ levels.length
      ∧ memory.Sound pattern.steps levels := by
  induction hVisits with
  | start _ =>
      exact ⟨Nat.zero_le _, Nat.zero_le _,
        Memory.sound_fresh pattern.steps levels⟩
  | @enter op cursor _ _ _ ih =>
      exact ⟨ih.1, ih.2.1, ih.2.2.noteWalk op cursor⟩
  | @advance op cursor _ _ _ _ hStep _ hLevel _ ih =>
      exact ⟨(List.getElem?_eq_some_iff.mp hStep).1,
        (List.getElem?_eq_some_iff.mp hLevel).1,
        ih.2.2.noteTest op cursor⟩
  | split _ _ _ hMore _ ih =>
      exact ⟨Nat.le_of_lt hMore, ih.2⟩
  | retry _ hFailed hRoom ih =>
      have hAnswers :=
        answers_attemptFrom hCompile ih.1 ih.2.1 ih.2.2
      rw [hFailed] at hAnswers
      exact ⟨ih.1, by omega, hAnswers.2⟩

/-
  Attempts after the first are made behind a recursive step,
  and they leave enough levels.
-/
theorem Visits.behind :
    ∀ {op cursor : Nat} {memory : Memory},
      pattern.Visits levels .attempt (op + 1) cursor
        memory →
      (∃ step, pattern.steps[op]? = some step
        ∧ step.isRecursive = true)
        ∧ op + 1 < pattern.length
        ∧ cursor + pattern.need (op + 1) ≤ levels.length
  | _, _, _, .split _ hStep hRecursive hMore hRoom =>
      ⟨⟨_, hStep, hRecursive⟩, hMore, hRoom⟩
  | _, _, _, .retry hVisits _ hRoom =>
      ⟨hVisits.behind.1, hVisits.behind.2.1, hRoom⟩

/- A match that comes to a stage is a search. -/
theorem Visits.matching_eq
    (hVisits :
      pattern.Visits levels phase op cursor memory) :
    pattern.matching levels = pattern.search levels := by
  induction hVisits with
  | start hEnough => exact if_neg (Nat.not_lt.mpr hEnough)
  | enter _ _ ih => exact ih
  | advance _ _ _ _ _ ih => exact ih
  | split _ _ _ _ _ ih => exact ih
  | retry _ _ _ ih => exact ih

end Pattern

end HierPath

------------------------------------------------------------
-- How A Search Goes On
------------------------------------------------------------

namespace HierPath

namespace Pattern

variable {pattern : Pattern}
variable {levels : List String}
variable {op cursor : Nat}
variable {memory after : Memory}
variable {step : Step}

/- The items from a position on, with the first shown. -/
private theorem drop_eq_cons_of_getElem?
    {α : Type}
    {items : List α}
    {n : Nat}
    {item : α}
    (hItem : items[n]? = some item) :
    items.drop n = item :: items.drop (n + 1) := by
  rcases List.getElem?_eq_some_iff.mp hItem with
    ⟨hLess, rfl⟩
  exact List.drop_eq_getElem_cons hLess

/- A walk tests a single-level step and goes on behind it. -/
theorem walkFrom_of_single
    (hStep : pattern.steps[op]? = some step)
    (hSingle : step.isRecursive = false)
    {level : String}
    (hLevel : levels[cursor]? = some level) :
    pattern.walkFrom levels op cursor memory =
      if step.accepts level then
        pattern.walkFrom levels (op + 1) (cursor + 1)
          (memory.noteTest op cursor)
      else
        (false, memory.noteTest op cursor) := by
  unfold walkFrom
  rw [drop_eq_cons_of_getElem? hStep,
    drop_eq_cons_of_getElem? hLevel, Search.walk, hSingle]
  rfl

/- A walk fails at a single-level step without a level. -/
theorem walkFrom_of_no_level
    (hStep : pattern.steps[op]? = some step)
    (hSingle : step.isRecursive = false)
    (hLevel : levels[cursor]? = none) :
    pattern.walkFrom levels op cursor memory =
      (false, memory) := by
  have hNone : levels.drop cursor = [] :=
    List.drop_eq_nil_iff.mpr
      (List.getElem?_eq_none_iff.mp hLevel)
  unfold walkFrom
  rw [drop_eq_cons_of_getElem? hStep, hNone, Search.walk,
    hSingle]
  rfl

/- A recursive step at the end takes what is left. -/
theorem walkFrom_of_last
    (hStep : pattern.steps[op]? = some step)
    (hRecursive : step.isRecursive = true)
    (hLast : ¬ op + 1 < pattern.length) :
    pattern.walkFrom levels op cursor memory =
      (true, memory) := by
  have hNone : pattern.steps.drop (op + 1) = [] :=
    List.drop_eq_nil_iff.mpr (Nat.not_lt.mp hLast)
  unfold walkFrom
  rw [drop_eq_cons_of_getElem? hStep, hNone, Search.walk,
    hRecursive]
  rfl

/- A walk splits the levels at a recursive step. -/
theorem walkFrom_of_recursive
    (hStep : pattern.steps[op]? = some step)
    (hRecursive : step.isRecursive = true)
    (hMore : op + 1 < pattern.length) :
    pattern.walkFrom levels op cursor memory =
      pattern.branchFrom levels (op + 1) cursor memory := by
  have hRest : pattern.steps.drop (op + 1) ≠ [] :=
    List.drop_eq_nil_iff.not.mpr (Nat.not_le.mpr hMore)
  unfold walkFrom branchFrom need
  rw [drop_eq_cons_of_getElem? hStep, Search.walk,
    hRecursive, if_neg (by decide),
    if_neg (by simpa using hRest)]

/- Places that leave enough levels are tried one by one. -/
theorem branchFrom_of_room
    (hRoom : cursor + pattern.need op ≤ levels.length) :
    pattern.branchFrom levels op cursor memory =
      match pattern.attemptFrom levels op cursor memory with
      | (true, after) => (true, after)
      | (false, after) =>
          pattern.branchFrom levels op (cursor + 1)
            after := by
  have hEnough : ¬ levels.length < pattern.need op := by
    omega
  have hCount :
      levels.length - pattern.need op + 1 - cursor =
        levels.length - pattern.need op + 1 - (cursor + 1)
          + 1 := by
    omega
  unfold branchFrom attemptFrom Search.branch
  simp only [if_neg hEnough]
  rw [hCount, ← List.tail_drop]
  rfl

/- Where no place leaves enough levels, none is tried. -/
theorem branchFrom_of_no_room
    (hRoom : ¬ cursor + pattern.need op ≤ levels.length) :
    pattern.branchFrom levels op cursor memory =
      (false, memory) := by
  unfold branchFrom Search.branch
  by_cases hFew : levels.length < pattern.need op
  · exact if_pos hFew
  · have hCount :
        levels.length - pattern.need op + 1 - cursor =
          0 := by
      omega
    rw [if_neg hFew, hCount]
    rfl

/- An attempt that is new walks, and remembers a failure. -/
theorem attemptFrom_of_new
    (hNew : memory.hasFailed op cursor = false) :
    pattern.attemptFrom levels op cursor memory =
      match pattern.walkFrom levels op cursor
        (memory.noteWalk op cursor) with
      | (true, after) => (true, after)
      | (false, after) => (false, after.fail op cursor) := by
  unfold attemptFrom Search.attempt
  rw [hNew]
  rfl

end Pattern

end HierPath
