import HierPath.Pattern.Search
import HierPath.Proofs.Pattern.Blocks

/-
  Correctness of the search for a fit. A search gives the
  right answer from every memory that holds failures only,
  and it leaves such a memory. Each way of combining
  searches keeps this, so the bound on splits and the table
  of failures never change an answer.

  Key definitions include:
    * `Memory.Sound`
    * `Search.Answers`
    * `Search.Decides`

  Key theorems include:
    * `Search.decides_walk`
    * `Pattern.search_answers`
    * `Pattern.isMatch_iff_fits`
-/

------------------------------------------------------------
-- Places In A Memory
------------------------------------------------------------

namespace HierPath

namespace Memory

/- Places in range have keys in range. -/
theorem key_lt
    {memory : Memory}
    {steps levels op cursor : Nat}
    (hWidth : memory.width = levels + 1)
    (hOp : op ≤ steps)
    (hCursor : cursor ≤ levels) :
    memory.key op cursor < (steps + 1) * (levels + 1) := by
  unfold key
  rw [hWidth, Nat.add_mul, Nat.one_mul]
  have hRow : op * (levels + 1) ≤ steps * (levels + 1) :=
    Nat.mul_le_mul_right _ hOp
  omega

/- Places in range are told apart by their keys. -/
theorem key_inj
    {memory : Memory}
    {levels op op' cursor cursor' : Nat}
    (hWidth : memory.width = levels + 1)
    (hCursor : cursor ≤ levels)
    (hCursor' : cursor' ≤ levels)
    (hKey : memory.key op cursor = memory.key op' cursor') :
    op = op' ∧ cursor = cursor' := by
  unfold key at hKey
  rw [hWidth] at hKey
  have hSmall : cursor < levels + 1 := by
    omega
  have hSmall' : cursor' < levels + 1 := by
    omega
  have hRow :
      ∀ row column, column < levels + 1 →
        (row * (levels + 1) + column) / (levels + 1) =
          row := by
    intro row column hColumn
    rw [Nat.add_comm, Nat.add_mul_div_right _ _
      (Nat.succ_pos levels), Nat.div_eq_of_lt hColumn,
      Nat.zero_add]
  have hOp : op = op' := by
    rw [← hRow op cursor hSmall, hKey,
      hRow op' cursor' hSmall']
  refine ⟨hOp, ?_⟩
  subst hOp
  exact Nat.add_left_cancel hKey

/- A place is known to fail where its entry is set. -/
theorem hasFailed_iff
    {memory : Memory}
    {op cursor : Nat} :
    memory.hasFailed op cursor = true ↔
      memory.failed[memory.key op cursor]? = some true := by
  unfold hasFailed
  cases memory.failed[memory.key op cursor]? with
  | none => simp
  | some failed => simp

/-
  After a failure, the places are known to fail that were
  before, and those that share the entry set for it.
-/
theorem hasFailed_fail_iff
    {memory : Memory}
    {op op' cursor cursor' : Nat} :
    (memory.fail op cursor).hasFailed op' cursor' = true ↔
      (memory.key op cursor = memory.key op' cursor'
        ∧ memory.key op cursor < memory.failed.size)
        ∨ memory.hasFailed op' cursor' = true := by
  rw [hasFailed_iff, hasFailed_iff]
  change
    (memory.failed.setIfInBounds
      (memory.key op cursor) true)[
        memory.key op' cursor']? = some true ↔ _
  rw [Array.getElem?_setIfInBounds]
  by_cases hKey :
      memory.key op cursor = memory.key op' cursor'
  · rw [if_pos hKey, ← hKey]
    by_cases hLess :
        memory.key op cursor < memory.failed.size
    · simp [hLess]
    · simp [hLess]
  · simp [hKey]

/- Nothing else than the place that fails is new. -/
theorem hasFailed_of_fail
    {memory : Memory}
    {levels op op' cursor cursor' : Nat}
    (hWidth : memory.width = levels + 1)
    (hCursor : cursor ≤ levels)
    (hCursor' : cursor' ≤ levels)
    (hFailed :
      (memory.fail op cursor).hasFailed op' cursor' =
        true) :
    (op' = op ∧ cursor' = cursor)
      ∨ memory.hasFailed op' cursor' = true := by
  rcases hasFailed_fail_iff.mp hFailed with
    ⟨hKey, _⟩ | hOld
  · rcases key_inj hWidth hCursor hCursor' hKey with
      ⟨hOp, hSame⟩
    exact Or.inl ⟨hOp.symm, hSame.symm⟩
  · exact Or.inr hOld

end Memory

end HierPath

------------------------------------------------------------
-- Sound Memories
------------------------------------------------------------

namespace HierPath

namespace Memory

/-
  The memory belongs to a search for the steps in all of
  the levels, and it holds failures only: from a place that
  is held, the steps to come do not fit the levels left.
-/
structure Sound
    (steps : List Step)
    (levels : List String)
    (memory : Memory) : Prop where
  width : memory.width = levels.length + 1
  size :
    memory.failed.size =
      (steps.length + 1) * (levels.length + 1)
  failed :
    ∀ op ≤ steps.length, ∀ cursor ≤ levels.length,
      memory.hasFailed op cursor = true →
        ¬ Pattern.Fits (steps.drop op) (levels.drop cursor)

variable {steps : List Step}
variable {levels : List String}
variable {memory : Memory}

/- The memory at the start holds nothing. -/
theorem sound_fresh
    (steps : List Step)
    (levels : List String) :
    (fresh steps.length levels.length).Sound
      steps levels where
  width := rfl
  size := Array.size_replicate
  failed := by
    intro op _ cursor _ hFailed
    unfold hasFailed fresh at hFailed
    rw [Array.getElem?_replicate] at hFailed
    split at hFailed <;> cases hFailed

/- The record of walks says nothing about failures. -/
theorem Sound.noteWalk
    (hMemory : memory.Sound steps levels)
    (op cursor : Nat) :
    (memory.noteWalk op cursor).Sound steps levels :=
  ⟨hMemory.width, hMemory.size, hMemory.failed⟩

/- The record of tests says nothing about failures. -/
theorem Sound.noteTest
    (hMemory : memory.Sound steps levels)
    (op cursor : Nat) :
    (memory.noteTest op cursor).Sound steps levels :=
  ⟨hMemory.width, hMemory.size, hMemory.failed⟩

/- A place from which nothing fits may be held. -/
theorem Sound.fail
    (hMemory : memory.Sound steps levels)
    {op cursor : Nat}
    (hCursor : cursor ≤ levels.length)
    (hFits :
      ¬ Pattern.Fits (steps.drop op)
        (levels.drop cursor)) :
    (memory.fail op cursor).Sound steps levels where
  width := hMemory.width
  size := by
    unfold Memory.fail
    rw [Array.size_setIfInBounds, hMemory.size]
  failed := by
    intro op' hOp' cursor' hCursor' hFailed
    rcases hasFailed_of_fail hMemory.width hCursor
      hCursor' hFailed with ⟨rfl, rfl⟩ | hOld
    · exact hFits
    · exact hMemory.failed op' hOp' cursor' hCursor' hOld

end Memory

end HierPath

------------------------------------------------------------
-- Deciding Searches
------------------------------------------------------------

namespace HierPath

namespace Search

open Pattern

/- The answer is right, and the memory left is sound. -/
def Answers
    (steps : List Step)
    (levels : List String)
    (found : Bool × Memory)
    (claim : Prop) : Prop :=
  (found.1 = true ↔ claim) ∧ found.2.Sound steps levels

/-
  From every level position and every sound memory, the
  search answers whether the steps that it is for fit the
  levels that are left.
-/
def Decides
    (steps : List Step)
    (levels : List String)
    (rest : List Step)
    (goal : Goal) : Prop :=
  ∀ cursor ≤ levels.length,
    ∀ memory, memory.Sound steps levels →
      Answers steps levels
        (goal (levels.drop cursor) cursor memory)
        (Fits rest (levels.drop cursor))

variable {steps rest : List Step}
variable {levels : List String}
variable {goal : Goal}

/- An answer in the negative. -/
private theorem answers_false
    {memory : Memory}
    (hMemory : memory.Sound steps levels)
    {claim : Prop}
    (hClaim : ¬ claim) :
    Answers steps levels (false, memory) claim := by
  refine ⟨?_, hMemory⟩
  simp [hClaim]

/- An answer in the affirmative. -/
private theorem answers_true
    {memory : Memory}
    (hMemory : memory.Sound steps levels)
    {claim : Prop}
    (hClaim : claim) :
    Answers steps levels (true, memory) claim := by
  refine ⟨?_, hMemory⟩
  simp [hClaim]

/- Remembered failures do not change an answer. -/
theorem decides_attempt
    {op : Nat}
    (hOp : op ≤ steps.length)
    (hGoal : Decides steps levels (steps.drop op) goal) :
    Decides steps levels (steps.drop op)
      (attempt goal op) := by
  intro cursor hCursor memory hMemory
  unfold attempt
  by_cases hFailed : memory.hasFailed op cursor = true
  · rw [if_pos hFailed]
    exact answers_false hMemory
      (hMemory.failed op hOp cursor hCursor hFailed)
  · rw [if_neg hFailed]
    have hAnswers := hGoal cursor hCursor _
      (hMemory.noteWalk op cursor)
    split
    next after hFound =>
      rw [hFound] at hAnswers
      exact hAnswers
    next after hFound =>
      rw [hFound] at hAnswers
      have hFits :
          ¬ Fits (steps.drop op) (levels.drop cursor) := by
        intro hFits
        cases hAnswers.1.mpr hFits
      exact answers_false (hAnswers.2.fail hCursor hFits)
        hFits

/-
  Trying places in a row answers whether there is a fit
  from one of them.
-/
theorem answers_trySplits
    (hGoal : Decides steps levels rest goal)
    {count cursor : Nat}
    (hCount : cursor + count ≤ levels.length + 1)
    {memory : Memory}
    (hMemory : memory.Sound steps levels) :
    Answers steps levels
      (trySplits goal count (levels.drop cursor) cursor
        memory)
      (∃ i < count, Fits rest (levels.drop (cursor + i))) := by
  induction count generalizing cursor memory with
  | zero =>
      unfold trySplits
      apply answers_false hMemory
      intro hSome
      rcases hSome with ⟨i, hLess, _⟩
      exact Nat.not_lt_zero i hLess
  | succ count ih =>
      unfold trySplits
      have hAnswers := hGoal cursor (by omega) memory hMemory
      split
      next after hFound =>
        rw [hFound] at hAnswers
        apply answers_true hAnswers.2
        exact ⟨0, Nat.succ_pos count, hAnswers.1.mp rfl⟩
      next after hFound =>
        rw [hFound] at hAnswers
        rw [List.tail_drop]
        have hNext :
            cursor + 1 + count ≤ levels.length + 1 := by
          omega
        have hRest := ih hNext hAnswers.2
        refine ⟨?_, hRest.2⟩
        rw [hRest.1]
        constructor
        · intro hLater
          rcases hLater with ⟨i, hLess, hFits⟩
          refine ⟨i + 1, by omega, ?_⟩
          rwa [Nat.add_right_comm] at hFits
        · intro hSome
          rcases hSome with ⟨i, hLess, hFits⟩
          cases i with
          | zero =>
              cases hAnswers.1.mpr hFits
          | succ i =>
              refine ⟨i, by omega, ?_⟩
              rwa [Nat.add_right_comm]

/- The items that come after the first of those left. -/
theorem drop_succ_of_drop_eq_cons
    {α : Type}
    {items after : List α}
    {n : Nat}
    {first : α}
    (hDrop : items.drop n = first :: after) :
    n + 1 ≤ items.length ∧ items.drop (n + 1) = after := by
  constructor
  · apply Nat.lt_of_not_le
    intro hLong
    rw [List.drop_of_length_le hLong] at hDrop
    cases hDrop
  · rw [← List.tail_drop, hDrop, List.tail_cons]

/- A single-level step is decided by its test. -/
theorem decides_testLevel
    {step : Step}
    (hSingle : step.isRecursive = false)
    {op : Nat}
    (hGoal : Decides steps levels rest goal) :
    Decides steps levels (step :: rest)
      (testLevel step op goal) := by
  intro cursor hCursor memory hMemory
  cases hLevels : levels.drop cursor with
  | nil =>
      unfold testLevel
      apply answers_false hMemory
      rw [fits_single hSingle]
      intro hLevel
      rcases hLevel with ⟨level, after, hCons, _⟩
      cases hCons
  | cons level after =>
      rcases drop_succ_of_drop_eq_cons hLevels with
        ⟨hLess, hNext⟩
      rw [testLevel]
      have hNoted := hMemory.noteTest op cursor
      cases hAccepts : step.accepts level with
      | true =>
          rw [if_pos rfl]
          have hAnswers := hGoal (cursor + 1) hLess _ hNoted
          rw [hNext] at hAnswers
          refine ⟨?_, hAnswers.2⟩
          rw [hAnswers.1, fits_single hSingle]
          constructor
          · intro hFits
            exact ⟨level, after, rfl, hAccepts, hFits⟩
          · intro hLevel
            rcases hLevel with ⟨_, _, hCons, _, hFits⟩
            cases hCons
            exact hFits
      | false =>
          rw [if_neg Bool.false_ne_true]
          apply answers_false hNoted
          rw [fits_single hSingle]
          intro hLevel
          rcases hLevel with ⟨_, _, hCons, hTrue, _⟩
          cases hCons
          rw [hAccepts] at hTrue
          cases hTrue

/-
  Splits that leave fewer levels than are needed would
  fail, so leaving them out changes no answer.
-/
theorem decides_branch
    {step : Step}
    (hRecursive : step.isRecursive = true)
    {op : Nat}
    (hOp : op ≤ steps.length)
    (hGoal : Decides steps levels (steps.drop op) goal) :
    Decides steps levels (step :: steps.drop op)
      (branch (singles (steps.drop op)) levels.length op
        goal) := by
  intro cursor hCursor memory hMemory
  unfold branch
  have hNeed :
      ∀ n, Fits (steps.drop op) (levels.drop n) →
        singles (steps.drop op) ≤ levels.length - n := by
    intro n hFits
    have hBound := singles_le_of_fits hFits
    rwa [List.length_drop] at hBound
  by_cases hFew : levels.length < singles (steps.drop op)
  · rw [if_pos hFew]
    apply answers_false hMemory
    rw [fits_recursive hRecursive]
    intro hTaken
    rcases hTaken with ⟨n, _, hFits⟩
    rw [List.drop_drop] at hFits
    have hBound := hNeed _ hFits
    omega
  · rw [if_neg hFew]
    have hCount :
        cursor + (levels.length -
          singles (steps.drop op) + 1 - cursor) ≤
            levels.length + 1 := by
      omega
    have hAnswers := answers_trySplits
      (decides_attempt hOp hGoal) hCount hMemory
    refine ⟨?_, hAnswers.2⟩
    rw [hAnswers.1, fits_recursive hRecursive]
    constructor
    · intro hTried
      rcases hTried with ⟨n, hLess, hFits⟩
      refine ⟨n, ?_, ?_⟩
      · rw [List.length_drop]
        omega
      · rwa [List.drop_drop]
    · intro hTaken
      rcases hTaken with ⟨n, hLess, hFits⟩
      rw [List.length_drop] at hLess
      rw [List.drop_drop] at hFits
      refine ⟨n, ?_, hFits⟩
      have hBound := hNeed _ hFits
      omega

/- Walking the steps decides whether they fit. -/
theorem decides_walk
    {needs : Array Nat}
    (hNeeds :
      ∀ op ≤ steps.length,
        needs[op]? = some (singles (steps.drop op)))
    {op : Nat}
    (hOp : op ≤ steps.length)
    (hRest : steps.drop op = rest) :
    Decides steps levels rest
      (walk needs levels.length rest op) := by
  induction rest generalizing op with
  | nil =>
      intro cursor _ memory hMemory
      unfold walk
      refine ⟨?_, hMemory⟩
      rw [List.isEmpty_iff, fits_nil]
  | cons step rest ih =>
      rcases drop_succ_of_drop_eq_cons hRest with
        ⟨hLess, hBelow⟩
      have hGoal := ih hLess hBelow
      intro cursor hCursor memory hMemory
      unfold walk
      cases hStep : step.isRecursive with
      | false =>
          exact decides_testLevel hStep hGoal
            cursor hCursor memory hMemory
      | true =>
          rw [if_neg (by decide)]
          by_cases hLast : rest = []
          · subst hLast
            exact answers_true hMemory
              (fits_recursive_last hStep _)
          · rw [if_neg (by simpa using hLast),
              hNeeds (op + 1) hLess]
            subst hBelow
            exact decides_branch hStep hLess hGoal
              cursor hCursor memory hMemory

end Search

end HierPath

------------------------------------------------------------
-- Matching
------------------------------------------------------------

namespace HierPath

namespace Pattern

/- A full search answers whether the levels fit. -/
theorem search_answers
    {source : Path}
    {pattern : Pattern}
    (hCompile : compile source = .ok pattern)
    (levels : List String) :
    Search.Answers pattern.steps levels
      (pattern.search levels)
      (Fits pattern.steps levels) := by
  have hWalk :
      Search.Decides pattern.steps levels pattern.steps
        (Search.walk pattern.needs levels.length
          pattern.steps 0) :=
    Search.decides_walk
      (fun op hOp => needs_of_compile hCompile hOp)
      (Nat.zero_le _) List.drop_zero
  have hSearch :=
    Search.decides_attempt (Nat.zero_le _) hWalk
  exact hSearch 0 (Nat.zero_le _) _
    (Memory.sound_fresh pattern.steps levels)

/- Turning down too few levels changes no answer. -/
theorem isMatchLevels_iff_fits
    {source : Path}
    {pattern : Pattern}
    (hCompile : compile source = .ok pattern)
    (levels : List String) :
    pattern.isMatchLevels levels = true ↔
      Fits pattern.steps levels := by
  have hMin := minLevels_of_compile hCompile
  unfold isMatchLevels
  by_cases hFew : levels.length < pattern.minLevels
  · rw [if_pos hFew]
    constructor
    · intro hFalse
      cases hFalse
    · intro hFits
      have hBound := singles_le_of_fits hFits
      omega
  · rw [if_neg hFew]
    exact (search_answers hCompile levels).1

/-
  A compiled pattern matches levels that can be cut into
  blocks for its steps, and paths that have its anchor and
  such levels.
-/
theorem isMatch_iff_fits
    {source : Path}
    {pattern : Pattern}
    (hCompile : compile source = .ok pattern) :
    (∀ levels, pattern.isMatchLevels levels = true ↔
      Fits pattern.steps levels)
      ∧ (∀ candidate, pattern.isMatch candidate = true ↔
        candidate.anchor = source.anchor
          ∧ Fits pattern.steps candidate.segments) := by
  refine ⟨isMatchLevels_iff_fits hCompile, ?_⟩
  intro candidate
  have hSource := (of_compile hCompile).1
  unfold isMatch isMatchFrom
  rw [List.drop_zero, Bool.and_eq_true, Bool.and_eq_true,
    isMatchLevels_iff_fits hCompile, hSource]
  simp

/-
  A pattern with a glob between recursive steps matches a
  path through blocks of two, one and no levels, and a path
  without a level for its glob cannot be cut into blocks.
-/
theorem isMatch_iff_fits_of_inner_glob :
    ∃ pattern,
      compile ⟨.absolute, ["**", "a*", "**"]⟩ = .ok pattern
        ∧ pattern.isMatch
          ⟨.absolute, ["x", "y", "ab"]⟩ = true
        ∧ ¬ Fits pattern.steps ["x", "y"] := by
  have hCompile :
      compile ⟨.absolute, ["**", "a*", "**"]⟩ =
        .ok ⟨⟨.absolute, ["**", "a*", "**"]⟩,
          [.recursive, .glob ⟨[['a'], []]⟩, .recursive],
          #[1, 1, 0, 0]⟩ := by
    decide
  have hMatches := isMatch_iff_fits hCompile
  refine ⟨_, hCompile, ?_, ?_⟩
  · apply (hMatches.2 _).mpr
    refine ⟨rfl, [["x", "y"], ["ab"], []], ?_, rfl⟩
    refine .cons ?_ (.cons ?_ (.cons ?_ .nil))
    · exact Step.covers_of_isRecursive rfl _
    · intro _
      exact ⟨"ab", rfl, by decide⟩
    · exact Step.covers_of_isRecursive rfl _
  · rw [← hMatches.1]
    decide

end Pattern

end HierPath
