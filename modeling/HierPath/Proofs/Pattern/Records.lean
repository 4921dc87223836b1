import HierPath.Proofs.Pattern.Visits
import HierPath.Proofs.Pattern.Work

/-
  The record of a match has exactly the stages that it comes
  to: the places of attempts that were walked from, and the
  tests of walks.

  In one direction, the memory that a piece of the search
  leaves is a part of the memory of the whole match. In the
  other, every walk and every test is recorded at a stage.

  Since no place and no test is in the record twice, a match
  does no work twice.

  Key definitions include:
    * `Pattern.leaves`
    * `Pattern.RecordsVisits`

  Key theorems include:
    * `Pattern.Visits.leaves_growsTo_matching`
    * `Pattern.recordsVisits_matching`
    * `Pattern.mem_walked_iff`
    * `Pattern.mem_tested_iff`
    * `Pattern.work_is_never_repeated`
-/

------------------------------------------------------------
-- Stages That Are Recorded
------------------------------------------------------------

namespace HierPath

namespace Pattern

open Search (Phase)

variable {source : Path}
variable {pattern : Pattern}
variable {levels : List String}
variable {phase : Phase}
variable {op cursor : Nat}
variable {memory : Memory}

/- A walk adds to the memory that it finds. -/
theorem growsTo_walkFrom
    (pattern : Pattern)
    (op : Nat)
    (hCursor : cursor ≤ levels.length)
    (hSpans :
      memory.Spans pattern.length levels.length) :
    memory.GrowsTo
      (pattern.walkFrom levels op cursor memory).2 := by
  rcases Search.thrifty_walk pattern.needs levels rfl
    cursor hCursor memory hSpans with
      ⟨walks, tests, hSpends⟩
  exact ⟨walks, tests, hSpends.adds⟩

/- Attempts in a row add to the memory that they find. -/
theorem growsTo_branchFrom
    {step : Step}
    (hStep : pattern.steps[op]? = some step)
    (hRecursive : step.isRecursive = true)
    (hMore : op + 1 < pattern.length)
    (hSpans :
      memory.Spans pattern.length levels.length) :
    memory.GrowsTo
      (pattern.branchFrom levels (op + 1) cursor
        memory).2 := by
  by_cases hRoom :
      cursor + pattern.need (op + 1) ≤ levels.length
  · rw [← walkFrom_of_recursive hStep hRecursive hMore]
    exact growsTo_walkFrom pattern op (by omega) hSpans
  · rw [branchFrom_of_no_room hRoom]
    exact Memory.GrowsTo.refl memory

/- A walk is a part of the attempt that starts it. -/
theorem walkFrom_growsTo_attemptFrom
    (pattern : Pattern)
    (levels : List String)
    (hNew : memory.hasFailed op cursor = false) :
    (pattern.walkFrom levels op cursor
      (memory.noteWalk op cursor)).2.GrowsTo
        (pattern.attemptFrom levels op cursor
          memory).2 := by
  rw [attemptFrom_of_new hNew]
  split
  next after hFound =>
    rw [hFound]
    exact Memory.GrowsTo.refl after
  next after hFound =>
    rw [hFound]
    exact ⟨[], [], after.adds_fail op cursor⟩

/-
  The memory when the search is done with a stage. It is
  done with an attempt behind a recursive step when it is
  done with all those that may follow.
-/
def leaves
    (pattern : Pattern)
    (levels : List String) :
    Phase → Nat → Nat → Memory → Memory
  | .attempt, 0, cursor, memory =>
      (pattern.attemptFrom levels 0 cursor memory).2
  | .attempt, op + 1, cursor, memory =>
      (pattern.branchFrom levels (op + 1) cursor memory).2
  | .walk, op, cursor, memory =>
      (pattern.walkFrom levels op cursor memory).2

/- An attempt is a part of all those that may follow. -/
theorem Visits.attemptFrom_growsTo_leaves
    (hCompile : compile source = .ok pattern)
    (hVisits :
      pattern.Visits levels .attempt op cursor memory) :
    (pattern.attemptFrom levels op cursor
      memory).2.GrowsTo
        (pattern.leaves levels .attempt op cursor
          memory) := by
  cases op with
  | zero =>
      exact Memory.GrowsTo.refl _
  | succ op =>
      rcases hVisits.behind with
        ⟨⟨step, hStep, hRecursive⟩, hMore, hRoom⟩
      rcases hVisits.sound hCompile with
        ⟨hOp, hCursor, hMemory⟩
      have hAnswers :=
        answers_attemptFrom hCompile hOp hCursor hMemory
      rw [leaves, branchFrom_of_room hRoom]
      split
      next after hFound =>
        rw [hFound]
        exact Memory.GrowsTo.refl after
      next after hFound =>
        rw [hFound] at hAnswers ⊢
        exact growsTo_branchFrom hStep hRecursive hMore
          hAnswers.2.spans

/- What is done at a stage is a part of the whole match. -/
theorem Visits.leaves_growsTo_matching
    (hCompile : compile source = .ok pattern)
    (hVisits :
      pattern.Visits levels phase op cursor memory) :
    (pattern.leaves levels phase op cursor memory).GrowsTo
      (pattern.matching levels).2 := by
  induction hVisits with
  | start hEnough =>
      rw [(Visits.start hEnough).matching_eq]
      exact Memory.GrowsTo.refl _
  | enter hVisits hNew ih =>
      -- Only here does the memory grow between two stages.
      -- In all later cases the search goes on by an
      -- equation, and both stages leave the same memory.
      have hAttempt :=
        hVisits.attemptFrom_growsTo_leaves hCompile
      have hWalk :=
        walkFrom_growsTo_attemptFrom pattern levels hNew
      exact (hWalk.trans hAttempt).trans ih
  | advance _ hStep hSingle hLevel hAccepts ih =>
      rw [leaves, walkFrom_of_single hStep hSingle hLevel,
        if_pos hAccepts] at ih
      exact ih
  | split _ hStep hRecursive hMore _ ih =>
      rw [leaves,
        walkFrom_of_recursive hStep hRecursive hMore] at ih
      exact ih
  | retry hVisits hFailed _ ih =>
      rw [leaves, branchFrom_of_room hVisits.behind.2.2,
        hFailed] at ih
      exact ih

/- An attempt that is new is in the record of walks. -/
theorem Visits.mem_walked
    (hCompile : compile source = .ok pattern)
    (hVisits :
      pattern.Visits levels .attempt op cursor memory)
    (hNew : memory.hasFailed op cursor = false) :
    (op, cursor) ∈ (pattern.matching levels).2.walked := by
  have hWalk := hVisits.enter hNew
  rcases hWalk.sound hCompile with ⟨_, hCursor, hMemory⟩
  have hGrows :=
    growsTo_walkFrom pattern op hCursor hMemory.spans
  apply (hWalk.leaves_growsTo_matching hCompile).mem_walked
  apply hGrows.mem_walked
  exact List.mem_cons_self

/- A test on a walk is in the record of tests. -/
theorem Visits.mem_tested
    (hCompile : compile source = .ok pattern)
    (hVisits :
      pattern.Visits levels .walk op cursor memory)
    (hTest :
      Search.IsTest pattern.steps levels (op, cursor)) :
    (op, cursor) ∈ (pattern.matching levels).2.tested := by
  rcases hTest with ⟨step, level, hStep, hSingle, hLevel⟩
  rcases hVisits.sound hCompile with ⟨_, _, hMemory⟩
  have hNoted := hMemory.noteTest op cursor
  apply (hVisits.leaves_growsTo_matching hCompile).mem_tested
  rw [leaves, walkFrom_of_single hStep hSingle hLevel]
  split
  · have hLess : cursor + 1 ≤ levels.length :=
      (List.getElem?_eq_some_iff.mp hLevel).1
    have hGrows :=
      growsTo_walkFrom pattern (op + 1) hLess hNoted.spans
    apply hGrows.mem_tested
    exact List.mem_cons_self
  · exact List.mem_cons_self

end Pattern

end HierPath

------------------------------------------------------------
-- Records Of Stages
------------------------------------------------------------

namespace HierPath

namespace Pattern

open Search (Phase)

/-
  The record holds stages only: places that were attempted
  before they had failed, and tests that a walk came to.
-/
structure RecordsVisits
    (pattern : Pattern)
    (levels : List String)
    (memory : Memory) : Prop where
  walked :
    ∀ place ∈ memory.walked, ∃ found,
      pattern.Visits levels .attempt place.1 place.2 found
        ∧ found.hasFailed place.1 place.2 = false
  tested :
    ∀ test ∈ memory.tested, ∃ found,
      pattern.Visits levels .walk test.1 test.2 found
        ∧ Search.IsTest pattern.steps levels test

variable {source : Path}
variable {pattern : Pattern}
variable {levels : List String}
variable {op cursor : Nat}
variable {memory : Memory}

/- The record at the start is empty. -/
theorem recordsVisits_fresh
    (pattern : Pattern)
    (levels : List String) :
    pattern.RecordsVisits levels
      (Memory.fresh pattern.length levels.length) := by
  constructor <;> simp [Memory.fresh]

/- A walk is recorded where an attempt starts it. -/
theorem RecordsVisits.noteWalk
    (hRecords : pattern.RecordsVisits levels memory)
    (hVisits :
      pattern.Visits levels .attempt op cursor memory)
    (hNew : memory.hasFailed op cursor = false) :
    pattern.RecordsVisits levels
      (memory.noteWalk op cursor) where
  walked := List.forall_mem_cons.mpr
    ⟨⟨memory, hVisits, hNew⟩, hRecords.walked⟩
  tested := hRecords.tested

/- A test is recorded where a walk makes it. -/
theorem RecordsVisits.noteTest
    (hRecords : pattern.RecordsVisits levels memory)
    (hVisits :
      pattern.Visits levels .walk op cursor memory)
    (hTest :
      Search.IsTest pattern.steps levels (op, cursor)) :
    pattern.RecordsVisits levels
      (memory.noteTest op cursor) where
  walked := hRecords.walked
  tested := List.forall_mem_cons.mpr
    ⟨⟨memory, hVisits, hTest⟩, hRecords.tested⟩

/- A failure is not in the record. -/
theorem RecordsVisits.fail
    (hRecords : pattern.RecordsVisits levels memory)
    (op cursor : Nat) :
    pattern.RecordsVisits levels (memory.fail op cursor) :=
  ⟨hRecords.walked, hRecords.tested⟩

/-
  All walks that come to a position record stages from there
  on.
-/
def WalksRecordVisits
    (pattern : Pattern)
    (levels : List String)
    (op : Nat) : Prop :=
  ∀ cursor memory,
    pattern.Visits levels .walk op cursor memory →
    pattern.RecordsVisits levels memory →
      pattern.RecordsVisits levels
        (pattern.walkFrom levels op cursor memory).2

/- An attempt records stages if its walk does. -/
theorem recordsVisits_attemptFrom
    (hWalks : pattern.WalksRecordVisits levels op)
    (hVisits :
      pattern.Visits levels .attempt op cursor memory)
    (hRecords : pattern.RecordsVisits levels memory) :
    pattern.RecordsVisits levels
      (pattern.attemptFrom levels op cursor memory).2 := by
  cases hFailed : memory.hasFailed op cursor with
  | true =>
      unfold attemptFrom Search.attempt
      rw [hFailed]
      exact hRecords
  | false =>
      have hLater := hWalks cursor _
        (hVisits.enter hFailed)
        (hRecords.noteWalk hVisits hFailed)
      rw [attemptFrom_of_new hFailed]
      split
      next after hFound =>
        rw [hFound] at hLater
        exact hLater
      next after hFound =>
        rw [hFound] at hLater
        exact hLater.fail op cursor

/-
  Attempts in a row record stages if their walks do. The
  induction is on the number of places that are left.
-/
theorem recordsVisits_branchFrom
    (hWalks : pattern.WalksRecordVisits levels (op + 1))
    (hVisits :
      pattern.Visits levels .attempt (op + 1) cursor
        memory)
    (hRecords : pattern.RecordsVisits levels memory) :
    pattern.RecordsVisits levels
      (pattern.branchFrom levels (op + 1) cursor
        memory).2 := by
  induction hLeft : levels.length + 1 - cursor
    generalizing cursor memory with
  | zero =>
      -- An attempt leaves enough levels, so the position
      -- is in range and at least one place is left.
      have hRoom := hVisits.behind.2.2
      omega
  | succ left ih =>
      have hFirst := recordsVisits_attemptFrom
        hWalks hVisits hRecords
      rw [branchFrom_of_room hVisits.behind.2.2]
      split
      next after hFound =>
        rw [hFound] at hFirst
        exact hFirst
      next after hFound =>
        rw [hFound] at hFirst
        by_cases hRoom :
            cursor + 1 + pattern.need (op + 1) ≤
              levels.length
        · exact ih (hVisits.retry hFound hRoom) hFirst
            (by omega)
        · rw [branchFrom_of_no_room hRoom]
          exact hFirst

/-
  Walks record stages. The induction is on the steps that
  are left.
-/
theorem walksRecordVisits
    (pattern : Pattern)
    (levels : List String)
    (op : Nat) :
    pattern.WalksRecordVisits levels op := by
  induction hRest : pattern.steps.drop op
    generalizing op with
  | nil =>
      intro cursor memory _ hRecords
      unfold walkFrom
      rw [hRest]
      exact hRecords
  | cons step rest ih =>
      have hStep := Search.getElem?_of_drop_eq_cons hRest
      have hNext := ih (op + 1)
        (Search.drop_succ_of_drop_eq_cons hRest).2
      intro cursor memory hVisits hRecords
      cases hKind : step.isRecursive with
      | false =>
          cases hLevel : levels[cursor]? with
          | none =>
              rw [walkFrom_of_no_level hStep hKind hLevel]
              exact hRecords
          | some level =>
              have hNoted := hRecords.noteTest hVisits
                ⟨step, level, hStep, hKind, hLevel⟩
              rw [walkFrom_of_single hStep hKind hLevel]
              split
              next hAccepts =>
                have hAdvance := hVisits.advance hStep
                  hKind hLevel hAccepts
                exact hNext _ _ hAdvance hNoted
              next =>
                exact hNoted
      | true =>
          by_cases hMore : op + 1 < pattern.length
          · rw [walkFrom_of_recursive hStep hKind hMore]
            by_cases hRoom :
                cursor + pattern.need (op + 1) ≤
                  levels.length
            · have hSplit :=
                hVisits.split hStep hKind hMore hRoom
              exact recordsVisits_branchFrom hNext hSplit
                hRecords
            · rw [branchFrom_of_no_room hRoom]
              exact hRecords
          · rw [walkFrom_of_last hStep hKind hMore]
            exact hRecords

/- A match of levels records stages. -/
theorem recordsVisits_matching
    (pattern : Pattern)
    (levels : List String) :
    pattern.RecordsVisits levels
      (pattern.matching levels).2 := by
  have hFresh := recordsVisits_fresh pattern levels
  by_cases hFew : levels.length < pattern.minLevels
  · unfold matching
    rw [if_pos hFew]
    exact hFresh
  · have hStart :=
      Visits.start (Nat.le_of_not_lt hFew)
    rw [hStart.matching_eq]
    exact recordsVisits_attemptFrom
      (walksRecordVisits pattern levels 0) hStart hFresh

/-
  The places that a match walks from are those of the
  attempts that it comes to before they have failed.
-/
theorem mem_walked_iff
    (hCompile : compile source = .ok pattern) :
    (op, cursor) ∈ (pattern.matching levels).2.walked ↔
      ∃ memory,
        pattern.Visits levels .attempt op cursor memory
          ∧ memory.hasFailed op cursor = false := by
  constructor
  · intro hPlace
    exact (recordsVisits_matching pattern levels).walked
      (op, cursor) hPlace
  · intro hAttempt
    rcases hAttempt with ⟨memory, hVisits, hNew⟩
    exact hVisits.mem_walked hCompile hNew

/-
  The tests that a match makes are those of the places that
  its walks come to, where there is a step for one level and
  a level to test it against.
-/
theorem mem_tested_iff
    (hCompile : compile source = .ok pattern) :
    (op, cursor) ∈ (pattern.matching levels).2.tested ↔
      (∃ memory,
        pattern.Visits levels .walk op cursor memory)
        ∧ Search.IsTest pattern.steps levels
          (op, cursor) := by
  constructor
  · intro hPlace
    rcases (recordsVisits_matching pattern levels).tested
      (op, cursor) hPlace with ⟨memory, hVisits, hTest⟩
    exact ⟨⟨memory, hVisits⟩, hTest⟩
  · intro hWalk
    rcases hWalk with ⟨⟨memory, hVisits⟩, hTest⟩
    exact hVisits.mem_tested hCompile hTest

/-
  A match of levels walks from the places of its attempts
  that are not known to fail, and from no place twice. On
  its walks it tests the steps for one level, and none of
  them twice against one level. So there are no more tests
  than there are pairs of a step and a level, however many
  recursive steps a pattern has.
-/
theorem work_is_never_repeated
    (hCompile : compile source = .ok pattern)
    (levels : List String) :
    let found := pattern.matching levels
    found.1 = pattern.isMatchLevels levels
      ∧ (∀ op cursor, (op, cursor) ∈ found.2.walked ↔
        ∃ memory,
          pattern.Visits levels .attempt op cursor memory
            ∧ memory.hasFailed op cursor = false)
      ∧ found.2.walked.Nodup
      ∧ (∀ op cursor, (op, cursor) ∈ found.2.tested ↔
        (∃ memory,
          pattern.Visits levels .walk op cursor memory)
          ∧ Search.IsTest pattern.steps levels (op, cursor))
      ∧ found.2.tested.Nodup
      ∧ found.2.tested.length ≤
        pattern.length * levels.length := by
  refine ⟨fst_matching pattern levels, ?_, ?_, ?_, ?_, ?_⟩
  · exact fun _ _ => mem_walked_iff hCompile
  · exact nodup_walked pattern levels
  · exact fun _ _ => mem_tested_iff hCompile
  · exact nodup_tested pattern levels
  · exact length_tested_le pattern levels

/-
  Two walks from the first step on come to the last one at
  the same level. Only the first of them goes on there, so
  there are four tests where there could be twelve.
-/
theorem work_is_never_repeated_of_place_reached_twice :
    ∃ pattern,
      compile ⟨.absolute, ["**", "a", "**", "b"]⟩ =
        .ok pattern
        ∧ (pattern.matching ["a", "a", "c"]).2.walked =
          [(1, 1), (3, 2), (3, 1), (1, 0), (0, 0)]
        ∧ (pattern.matching ["a", "a", "c"]).2.tested =
          [(1, 1), (3, 2), (3, 1), (1, 0)]
        ∧ (pattern.matching ["a", "a", "c"]).2.walked.Nodup
        ∧ (pattern.matching
          ["a", "a", "c"]).2.tested.Nodup := by
  have hCompile :
      compile ⟨.absolute, ["**", "a", "**", "b"]⟩ =
        .ok ⟨⟨.absolute, ["**", "a", "**", "b"]⟩,
          [.recursive, .literal "a", .recursive,
            .literal "b"],
          #[2, 2, 1, 1, 0]⟩ := by
    decide
  have hWork :=
    work_is_never_repeated hCompile ["a", "a", "c"]
  exact ⟨_, hCompile, by decide, by decide,
    hWork.2.2.1, hWork.2.2.2.2.1⟩

end Pattern

end HierPath
