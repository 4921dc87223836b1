import HierPath.Proofs.Pattern.Memory
import Mathlib.Data.List.Nodup
import Mathlib.Data.List.Perm.Subperm
import Mathlib.Data.List.ProdSigma

/-
  How much work a search does. No place is walked from
  twice, and no step is tested twice against one level.

  A walk that fails leaves its place in the table, and a
  walk that succeeds ends the whole search. So what a search
  adds to the record can be told piece by piece: the places
  of a new piece had not failed before it, and those of a
  failed piece have failed after it.

  A walk in the middle of single-level steps is not held in
  the table. But every test belongs to the walk that it was
  made on, whose place can be read off the test: it lies
  behind the closest recursive step. Walks that differ
  therefore make tests that differ.

  Key definitions include:
    * `Search.origin`
    * `Search.NewWalks`
    * `Search.OwnTests`
    * `Search.Spends`

  Key theorems include:
    * `Search.Spends.trans`
    * `Search.thrifty_attempt`
    * `Search.thrifty_walk`
    * `Pattern.nodup_walked`
    * `Pattern.nodup_tested`
    * `Pattern.length_tested_le`
-/

------------------------------------------------------------
-- Where Tests Come From
------------------------------------------------------------

namespace HierPath

namespace Search

/-
  Where the single-level steps around a position begin:
  behind the closest recursive step in front of it.
-/
def runStart
    (steps : List Step) : Nat → Nat
  | 0 => 0
  | op + 1 =>
      if steps[op]?.any Step.isRecursive then
        op + 1
      else
        runStart steps op

/-
  The place from which a walk comes to a place. On single-
  level steps it takes one level for each.
-/
def origin
    (steps : List Step)
    (place : Nat × Nat) : Nat × Nat :=
  let start := runStart steps place.1
  (start, place.2 - (place.1 - start))

variable {steps : List Step}
variable {step : Step}
variable {op : Nat}

/- A run of steps begins no later than it is. -/
theorem runStart_le
    (steps : List Step)
    (op : Nat) :
    runStart steps op ≤ op := by
  induction op with
  | zero =>
      exact Nat.le_refl 0
  | succ op ih =>
      rw [runStart]
      split
      · exact Nat.le_refl _
      · exact Nat.le_succ_of_le ih

/- The walk from the start comes from there. -/
theorem origin_zero
    (steps : List Step)
    (cursor : Nat) :
    origin steps (0, cursor) = (0, cursor) :=
  rfl

/- A walk behind a recursive step begins there. -/
theorem origin_of_recursive
    (hStep : steps[op]? = some step)
    (hRecursive : step.isRecursive = true)
    (cursor : Nat) :
    origin steps (op + 1, cursor) = (op + 1, cursor) := by
  have hStart : runStart steps (op + 1) = op + 1 := by
    rw [runStart, hStep]
    exact if_pos hRecursive
  simp only [origin, hStart, Nat.sub_self, Nat.sub_zero]

/- A walk goes on behind a step that takes one level. -/
theorem origin_of_single
    (hStep : steps[op]? = some step)
    (hSingle : step.isRecursive = false)
    (cursor : Nat) :
    origin steps (op + 1, cursor + 1) =
      origin steps (op, cursor) := by
  have hStart :
      runStart steps (op + 1) = runStart steps op := by
    rw [runStart, hStep]
    apply if_neg
    simp [hSingle]
  have hLe := runStart_le steps op
  simp only [origin, hStart]
  rw [Nat.succ_sub hLe, Nat.add_sub_add_right]

/-
  A test is made of a single-level step against a level
  that is there.
-/
def IsTest
    (steps : List Step)
    (levels : List String)
    (test : Nat × Nat) : Prop :=
  ∃ step level, steps[test.1]? = some step
    ∧ step.isRecursive = false
    ∧ levels[test.2]? = some level

end Search

end HierPath

------------------------------------------------------------
-- New Walks And Own Tests
------------------------------------------------------------

namespace HierPath

namespace Search

/-
  The walks that a search has made on top of those that are
  still going on: none of their places had failed before,
  and all of them have failed if the search has.
-/
structure NewWalks
    (low : Nat)
    (ongoing : List (Nat × Nat))
    (before : Memory)
    (found : Bool × Memory)
    (walks : List (Nat × Nat)) : Prop where
  low_le : ∀ place ∈ walks, low ≤ place.1
  unfailed :
    ∀ place ∈ walks,
      before.hasFailed place.1 place.2 = false
  failed :
    found.1 = false → ∀ place ∈ walks,
      found.2.hasFailed place.1 place.2 = true
  nodup : (walks ++ ongoing).Nodup

/-
  The tests that a search has made, each on one of the walks
  that are given.
-/
structure OwnTests
    (steps : List Step)
    (levels : List String)
    (low : Nat)
    (walks tests : List (Nat × Nat)) : Prop where
  low_le : ∀ test ∈ tests, low ≤ test.1
  isTest : ∀ test ∈ tests, IsTest steps levels test
  origin_mem : ∀ test ∈ tests, origin steps test ∈ walks
  nodup : tests.Nodup

/-
  The work of a search for the steps from a position on,
  while some walks are going on.
-/
structure Spends
    (steps : List Step)
    (levels : List String)
    (low : Nat)
    (ongoing : List (Nat × Nat))
    (before : Memory)
    (found : Bool × Memory)
    (walks tests : List (Nat × Nat)) : Prop where
  adds : before.Adds found.2 walks tests
  newWalks : NewWalks low ongoing before found walks
  ownTests :
    OwnTests steps levels low (walks ++ ongoing) tests

variable {steps : List Step}
variable {levels : List String}
variable {low op cursor : Nat}
variable {before between after : Memory}
variable {found : Bool × Memory}
variable {here : Nat × Nat}
variable {walks walks' tests tests' : List (Nat × Nat)}

/- A search that does nothing has no work. -/
theorem spends_nothing
    (answer : Bool)
    (memory : Memory)
    {ongoing : List (Nat × Nat)}
    (hOngoing : ongoing.Nodup) :
    Spends steps levels low ongoing memory
      (answer, memory) [] [] where
  adds := Memory.Adds.refl memory
  newWalks := by
    refine ⟨?_, ?_, ?_, hOngoing⟩ <;> simp
  ownTests := by
    constructor <;> simp

/-
  After a search that has failed, the places of the next one
  are new to both, because the first has left its own in the
  table.
-/
theorem NewWalks.append
    (hFirst :
      NewWalks low [] before (false, between) walks)
    (hSecond : NewWalks low [] between found walks')
    (hAdds : before.Adds between walks tests)
    (hAdds' : between.Adds found.2 walks' tests') :
    NewWalks low [] before found (walks' ++ walks) where
  low_le := List.forall_mem_append.mpr
    ⟨hSecond.low_le, hFirst.low_le⟩
  unfailed := by
    rw [List.forall_mem_append]
    refine ⟨?_, hFirst.unfailed⟩
    intro place hPlace
    exact hAdds.not_failed (hSecond.unfailed place hPlace)
  failed := by
    intro hFailed
    rw [List.forall_mem_append]
    refine ⟨hSecond.failed hFailed, ?_⟩
    intro place hPlace
    exact hAdds'.keeps _ _ (hFirst.failed rfl place hPlace)
  nodup := by
    have hWalks := hFirst.nodup
    have hWalks' := hSecond.nodup
    rw [List.append_nil] at hWalks hWalks' ⊢
    apply hWalks'.append hWalks
    intro place hLater hEarlier
    have hNew := hSecond.unfailed place hLater
    rw [hFirst.failed rfl place hEarlier] at hNew
    cases hNew

/- Tests on walks that differ are different. -/
theorem OwnTests.append
    (hFirst : OwnTests steps levels low walks tests)
    (hSecond : OwnTests steps levels low walks' tests')
    (hWalks : (walks' ++ walks).Nodup) :
    OwnTests steps levels low (walks' ++ walks)
      (tests' ++ tests) where
  low_le := List.forall_mem_append.mpr
    ⟨hSecond.low_le, hFirst.low_le⟩
  isTest := List.forall_mem_append.mpr
    ⟨hSecond.isTest, hFirst.isTest⟩
  origin_mem := by
    rw [List.forall_mem_append]
    constructor
    · intro test hTest
      exact List.mem_append_left _
        (hSecond.origin_mem test hTest)
    · intro test hTest
      exact List.mem_append_right _
        (hFirst.origin_mem test hTest)
  nodup := by
    apply hSecond.nodup.append hFirst.nodup
    intro test hLater hEarlier
    exact List.disjoint_of_nodup_append hWalks
      (hSecond.origin_mem test hLater)
      (hFirst.origin_mem test hEarlier)

/- A search that follows a failed one adds to its work. -/
theorem Spends.trans
    (hFirst :
      Spends steps levels low [] before (false, between)
        walks tests)
    (hSecond :
      Spends steps levels low [] between found
        walks' tests') :
    Spends steps levels low [] before found
      (walks' ++ walks) (tests' ++ tests) := by
  have hWalks := hFirst.newWalks.append hSecond.newWalks
    hFirst.adds hSecond.adds
  have hTests := hFirst.ownTests
  have hTests' := hSecond.ownTests
  rw [List.append_nil] at hTests hTests'
  refine ⟨hFirst.adds.trans hSecond.adds, hWalks, ?_⟩
  rw [List.append_nil]
  apply hTests.append hTests'
  simpa using hWalks.nodup

/-
  A walk that stands at a recursive step goes on while the
  steps behind it are searched for. Its own place lies in
  front of theirs.
-/
theorem Spends.within
    (hSpends :
      Spends steps levels (op + 1) [] before found
        walks tests)
    (hHere : here.1 ≤ op) :
    Spends steps levels op [here] before found
      walks tests where
  adds := hSpends.adds
  newWalks := by
    have hWalks := hSpends.newWalks
    refine ⟨?_, hWalks.unfailed, hWalks.failed, ?_⟩
    · intro place hPlace
      exact Nat.le_of_succ_le (hWalks.low_le place hPlace)
    · have hNodup := hWalks.nodup
      rw [List.append_nil] at hNodup
      apply hNodup.append (List.nodup_singleton here)
      intro place hPlace hSame
      have hLow := hWalks.low_le place hPlace
      rw [List.mem_singleton.mp hSame] at hLow
      omega
  ownTests := by
    have hTests := hSpends.ownTests
    refine ⟨?_, hTests.isTest, ?_, hTests.nodup⟩
    · intro test hTest
      exact Nat.le_of_succ_le (hTests.low_le test hTest)
    · intro test hTest
      have hWalk := hTests.origin_mem test hTest
      rw [List.append_nil] at hWalk
      exact List.mem_append_left _ hWalk

/-
  A walk makes a test and goes on behind its step, so all
  later tests on it are of later steps.
-/
theorem Spends.afterTest
    (hSpends :
      Spends steps levels (op + 1)
        [origin steps (op, cursor)]
        (before.noteTest op cursor) found walks tests)
    (hTest : IsTest steps levels (op, cursor)) :
    Spends steps levels op [origin steps (op, cursor)]
      before found walks (tests ++ [(op, cursor)]) where
  adds := by
    have hAdds :=
      (before.adds_noteTest op cursor).trans hSpends.adds
    rwa [List.append_nil] at hAdds
  newWalks := by
    have hWalks := hSpends.newWalks
    refine ⟨?_, hWalks.unfailed, hWalks.failed,
      hWalks.nodup⟩
    intro place hPlace
    exact Nat.le_of_succ_le (hWalks.low_le place hPlace)
  ownTests := by
    have hTests := hSpends.ownTests
    refine ⟨?_, ?_, ?_, ?_⟩
    · rw [List.forall_mem_append]
      refine ⟨?_, by simp⟩
      intro test hLater
      exact Nat.le_of_succ_le (hTests.low_le test hLater)
    · rw [List.forall_mem_append]
      exact ⟨hTests.isTest, by simpa using hTest⟩
    · rw [List.forall_mem_append]
      exact ⟨hTests.origin_mem, by simp⟩
    · apply hTests.nodup.append (List.nodup_singleton _)
      intro test hLater hSame
      have hLow := hTests.low_le test hLater
      rw [List.mem_singleton.mp hSame] at hLow
      exact Nat.not_succ_le_self op hLow

/-
  A walk ends. If it fails, its own place has to be in the
  table that is left.
-/
theorem Spends.afterWalk
    (hSpends :
      Spends steps levels op [(op, cursor)]
        (before.noteWalk op cursor) found walks tests)
    (hNew : before.hasFailed op cursor = false)
    (hAdds : found.2.Adds after [] [])
    (hFailed :
      found.1 = false →
        after.hasFailed op cursor = true) :
    Spends steps levels op [] before (found.1, after)
      (walks ++ [(op, cursor)]) tests where
  adds := by
    have hWalk :=
      (before.adds_noteWalk op cursor).trans hSpends.adds
    have hAll := hWalk.trans hAdds
    simpa using hAll
  newWalks := by
    have hWalks := hSpends.newWalks
    refine ⟨?_, ?_, ?_, ?_⟩
    · rw [List.forall_mem_append]
      exact ⟨hWalks.low_le, by simp⟩
    · rw [List.forall_mem_append]
      exact ⟨hWalks.unfailed, by simpa using hNew⟩
    · intro hFalse
      rw [List.forall_mem_append]
      refine ⟨?_, by simpa using hFailed hFalse⟩
      intro place hPlace
      exact hAdds.keeps _ _
        (hWalks.failed hFalse place hPlace)
    · rw [List.append_nil]
      exact hWalks.nodup
  ownTests := by
    rw [List.append_nil]
    exact hSpends.ownTests

end Search

end HierPath

------------------------------------------------------------
-- Thrifty Searches
------------------------------------------------------------

namespace HierPath

namespace Search

variable {steps rest : List Step}
variable {step : Step}
variable {levels : List String}
variable {op cursor : Nat}
variable {goal : Goal}

/-
  From every level position and every table of the right
  shape, the search repeats no work. The walks that go on
  meanwhile depend on the level position.
-/
def Thrifty
    (steps : List Step)
    (levels : List String)
    (op : Nat)
    (ongoing : Nat → List (Nat × Nat))
    (goal : Goal) : Prop :=
  ∀ cursor ≤ levels.length,
    ∀ memory, memory.Spans steps.length levels.length →
      ∃ walks tests,
        Spends steps levels op (ongoing cursor) memory
          (goal (levels.drop cursor) cursor memory)
          walks tests

/-
  The same of a walk, which has come to the position from
  its own place and goes on meanwhile.
-/
abbrev ThriftyWalk
    (steps : List Step)
    (levels : List String)
    (op : Nat)
    (goal : Goal) : Prop :=
  Thrifty steps levels op
    (fun cursor => [origin steps (op, cursor)]) goal

/- A place that has failed is not walked from again. -/
theorem thrifty_attempt
    (hOp : op ≤ steps.length)
    (hGoal :
      Thrifty steps levels op (fun cursor => [(op, cursor)])
        goal) :
    Thrifty steps levels op (fun _ => [])
      (attempt goal op) := by
  intro cursor hCursor memory hSpans
  unfold attempt
  cases hFailed : memory.hasFailed op cursor with
  | true =>
      exact ⟨[], [],
        spends_nothing false memory List.nodup_nil⟩
  | false =>
      rw [if_neg Bool.false_ne_true]
      have hWalk := memory.adds_noteWalk op cursor
      rcases hGoal cursor hCursor _ (hWalk.spans hSpans)
        with ⟨walks, tests, hSpends⟩
      refine ⟨walks ++ [(op, cursor)], tests, ?_⟩
      have hAfter :=
        hSpends.adds.spans (hWalk.spans hSpans)
      split
      next after hFound =>
        -- After a success there is nothing to remember.
        rw [hFound] at hSpends
        apply hSpends.afterWalk hFailed
          (Memory.Adds.refl after)
        intro hFalse
        cases hFalse
      next after hFound =>
        rw [hFound] at hSpends hAfter
        apply hSpends.afterWalk hFailed
          (after.adds_fail op cursor)
        intro _
        exact Memory.hasFailed_fail_self hAfter hOp hCursor

/- Trying places in a row repeats no work. -/
theorem thrifty_trySplits
    (hGoal : Thrifty steps levels op (fun _ => []) goal)
    {count cursor : Nat}
    (hCount : cursor + count ≤ levels.length + 1)
    {memory : Memory}
    (hSpans : memory.Spans steps.length levels.length) :
    ∃ walks tests,
      Spends steps levels op [] memory
        (trySplits goal count (levels.drop cursor) cursor
          memory)
        walks tests := by
  induction count generalizing cursor memory with
  | zero =>
      exact ⟨[], [],
        spends_nothing false memory List.nodup_nil⟩
  | succ count ih =>
      rcases hGoal cursor (by omega) memory hSpans with
        ⟨walks, tests, hSpends⟩
      unfold trySplits
      split
      next after hFound =>
        rw [hFound] at hSpends
        exact ⟨walks, tests, hSpends⟩
      next after hFound =>
        rw [hFound] at hSpends
        have hNext :
            cursor + 1 + count ≤ levels.length + 1 := by
          omega
        rcases ih hNext (hSpends.adds.spans hSpans) with
          ⟨walks', tests', hSpends'⟩
        rw [List.tail_drop]
        exact ⟨walks' ++ walks, tests' ++ tests,
          hSpends.trans hSpends'⟩

/- The item at a position is the first of those left. -/
theorem getElem?_of_drop_eq_cons
    {α : Type}
    {items after : List α}
    {n : Nat}
    {first : α}
    (hDrop : items.drop n = first :: after) :
    items[n]? = some first := by
  rw [← List.head?_drop, hDrop]
  rfl

/- A walk makes one test of a single-level step. -/
theorem thrifty_testLevel
    (hStep : steps[op]? = some step)
    (hSingle : step.isRecursive = false)
    (hGoal : ThriftyWalk steps levels (op + 1) goal) :
    ThriftyWalk steps levels op
      (testLevel step op goal) := by
  intro cursor hCursor memory hSpans
  cases hLevels : levels.drop cursor with
  | nil =>
      exact ⟨[], [],
        spends_nothing false memory
          (List.nodup_singleton _)⟩
  | cons level after =>
      have hLevel := getElem?_of_drop_eq_cons hLevels
      rcases drop_succ_of_drop_eq_cons hLevels with
        ⟨hLess, hNext⟩
      have hTest : IsTest steps levels (op, cursor) :=
        ⟨step, level, hStep, hSingle, hLevel⟩
      have hNote := memory.adds_noteTest op cursor
      rw [testLevel]
      cases step.accepts level with
      | true =>
          rcases hGoal (cursor + 1) hLess _
            (hNote.spans hSpans) with
              ⟨walks, tests, hSpends⟩
          simp only [hNext, origin_of_single hStep hSingle]
            at hSpends
          exact ⟨walks, tests ++ [(op, cursor)],
            hSpends.afterTest hTest⟩
      | false =>
          refine ⟨[], [] ++ [(op, cursor)], ?_⟩
          apply Spends.afterTest _ hTest
          exact spends_nothing false _
            (List.nodup_singleton _)

/- A recursive step leaves the work to those behind it. -/
theorem thrifty_branch
    (hOp : op + 1 ≤ steps.length)
    (hStep : steps[op]? = some step)
    (hRecursive : step.isRecursive = true)
    (need : Nat)
    (hGoal : ThriftyWalk steps levels (op + 1) goal) :
    ThriftyWalk steps levels op
      (branch need levels.length (op + 1) goal) := by
  -- Walks behind the recursive step begin where they are.
  have hWalk :
      Thrifty steps levels (op + 1)
        (fun cursor => [(op + 1, cursor)]) goal := by
    simpa only [ThriftyWalk,
      origin_of_recursive hStep hRecursive] using hGoal
  intro cursor hCursor memory hSpans
  unfold branch
  by_cases hFew : levels.length < need
  · rw [if_pos hFew]
    exact ⟨[], [],
      spends_nothing false memory (List.nodup_singleton _)⟩
  · rw [if_neg hFew]
    have hCount :
        cursor + (levels.length - need + 1 - cursor) ≤
          levels.length + 1 := by
      omega
    rcases thrifty_trySplits (thrifty_attempt hOp hWalk)
      hCount hSpans with ⟨walks, tests, hSpends⟩
    exact ⟨walks, tests,
      hSpends.within (runStart_le steps op)⟩

/-
  Walking the steps repeats no work, whatever levels they
  are said to need.
-/
theorem thrifty_walk
    (needs : Array Nat)
    (levels : List String)
    (hRest : steps.drop op = rest) :
    ThriftyWalk steps levels op
      (walk needs levels.length rest op) := by
  induction rest generalizing op with
  | nil =>
      intro cursor _ memory _
      exact ⟨[], [],
        spends_nothing _ memory (List.nodup_singleton _)⟩
  | cons step rest ih =>
      rcases drop_succ_of_drop_eq_cons hRest with
        ⟨hLess, hBelow⟩
      have hStep := getElem?_of_drop_eq_cons hRest
      have hGoal := ih hBelow
      intro cursor hCursor memory hSpans
      unfold walk
      cases hKind : step.isRecursive with
      | false =>
          exact thrifty_testLevel hStep hKind hGoal
            cursor hCursor memory hSpans
      | true =>
          rw [if_neg (by decide)]
          split
          · exact ⟨[], [],
              spends_nothing true memory
                (List.nodup_singleton _)⟩
          · exact thrifty_branch hLess hStep hKind _ hGoal
              cursor hCursor memory hSpans

end Search

end HierPath

------------------------------------------------------------
-- The Work Of A Match
------------------------------------------------------------

namespace HierPath

namespace Pattern

/- A match repeats no work. -/
theorem exists_spends_matching
    (pattern : Pattern)
    (levels : List String) :
    ∃ walks tests,
      Search.Spends pattern.steps levels 0 []
        (Memory.fresh pattern.length levels.length)
        (pattern.matching levels) walks tests := by
  unfold matching
  split
  · exact ⟨[], [],
      Search.spends_nothing false _ List.nodup_nil⟩
  · have hWalk :
        Search.ThriftyWalk pattern.steps levels 0
          (Search.walk pattern.needs levels.length
            pattern.steps 0) :=
      Search.thrifty_walk pattern.needs levels
        List.drop_zero
    simp only [Search.ThriftyWalk, Search.origin_zero]
      at hWalk
    exact Search.thrifty_attempt (Nat.zero_le _) hWalk
      0 (Nat.zero_le _) _ (Memory.spans_fresh _ _)

/- A match walks from no place twice. -/
theorem nodup_walked
    (pattern : Pattern)
    (levels : List String) :
    (pattern.matching levels).2.walked.Nodup := by
  rcases exists_spends_matching pattern levels with
    ⟨walks, tests, hSpends⟩
  have hNodup := hSpends.newWalks.nodup
  rw [hSpends.adds.walked]
  exact hNodup

/- A match makes no test twice. -/
theorem nodup_tested
    (pattern : Pattern)
    (levels : List String) :
    (pattern.matching levels).2.tested.Nodup := by
  rcases exists_spends_matching pattern levels with
    ⟨walks, tests, hSpends⟩
  have hNodup := hSpends.ownTests.nodup
  rw [hSpends.adds.tested]
  simpa [Memory.fresh] using hNodup

/- A match tests steps for one level against levels. -/
theorem isTest_of_mem_tested
    {pattern : Pattern}
    {levels : List String}
    {test : Nat × Nat}
    (hTest : test ∈ (pattern.matching levels).2.tested) :
    Search.IsTest pattern.steps levels test := by
  rcases exists_spends_matching pattern levels with
    ⟨walks, tests, hSpends⟩
  rw [hSpends.adds.tested] at hTest
  apply hSpends.ownTests.isTest test
  simpa [Memory.fresh] using hTest

/-
  A match makes no more tests than there are pairs of a step
  and a level, however many recursive steps a pattern has.
-/
theorem length_tested_le
    (pattern : Pattern)
    (levels : List String) :
    (pattern.matching levels).2.tested.length ≤
      pattern.length * levels.length := by
  have hSubset :
      (pattern.matching levels).2.tested ⊆
        List.range pattern.length ×ˢ
          List.range levels.length := by
    intro test hTest
    rcases isTest_of_mem_tested hTest with
      ⟨step, level, hStep, _, hLevel⟩
    have hRow := (List.getElem?_eq_some_iff.mp hStep).1
    have hColumn := (List.getElem?_eq_some_iff.mp hLevel).1
    exact List.mem_product.mpr
      ⟨List.mem_range.mpr hRow, List.mem_range.mpr hColumn⟩
  have hSubperm :=
    (nodup_tested pattern levels).subperm hSubset
  have hLength := hSubperm.length_le
  rwa [List.length_product, List.length_range,
    List.length_range] at hLength

end Pattern

end HierPath
