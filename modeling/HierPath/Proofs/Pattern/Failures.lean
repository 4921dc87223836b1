import HierPath.Proofs.Pattern.Records

/-
  The table of a search changes no answer. It is compared
  with a plain search, which remembers nothing and tries
  every split of the levels at a recursive step.

  An entry of the table that is set belongs to exactly one
  place, from which the steps to come do not fit the levels
  left. That is so at every attempt of a match, and every
  attempt that finds such a table answers as the plain
  search does and leaves such a table.

  Key definitions include:
    * `Search.plain`
    * `Memory.HoldsOnlyFailures`

  Key theorems include:
    * `Search.plain_iff_fits`
    * `Memory.sound_iff_holdsOnlyFailures`
    * `Pattern.table_is_sound`
-/

------------------------------------------------------------
-- Plain Search
------------------------------------------------------------

namespace HierPath

namespace Search

open Pattern (Fits fits_nil fits_single fits_recursive
  fits_recursive_last)

/-
  Search without a memory. A recursive step that is not the
  last tries all splits of the levels.
-/
def plain : List Step → List String → Bool
  | [], levels => levels.isEmpty
  | step :: rest, levels =>
      if !step.isRecursive then
        match levels with
        | [] => false
        | level :: after =>
            step.accepts level && plain rest after
      else if rest.isEmpty then
        true
      else
        (List.range (levels.length + 1)).any fun split =>
          plain rest (levels.drop split)

/- The plain search decides whether the steps fit. -/
theorem plain_iff_fits
    {steps : List Step}
    {levels : List String} :
    plain steps levels = true ↔ Fits steps levels := by
  induction steps generalizing levels with
  | nil =>
      rw [plain, List.isEmpty_iff, fits_nil]
  | cons step rest ih =>
      cases hStep : step.isRecursive with
      | false =>
          unfold plain
          rw [fits_single hStep, hStep, if_pos (by decide)]
          cases levels with
          | nil => simp
          | cons level after => simp [ih]
      | true =>
          unfold plain
          rw [hStep, if_neg (by decide)]
          by_cases hLast : rest = []
          · subst hLast
            exact iff_of_true rfl
              (fits_recursive_last hStep levels)
          · rw [if_neg (by simpa using hLast),
              fits_recursive hStep, List.any_eq_true]
            simp only [List.mem_range, Nat.lt_succ_iff, ih]

end Search

end HierPath

------------------------------------------------------------
-- Entries Of A Table
------------------------------------------------------------

namespace HierPath

namespace Memory

variable {steps : List Step}
variable {levels : List String}
variable {memory : Memory}

/-
  The table has an entry for each place, and each entry that
  is set belongs to a place from which the steps to come do
  not fit the levels left.
-/
structure HoldsOnlyFailures
    (steps : List Step)
    (levels : List String)
    (memory : Memory) : Prop where
  spans : memory.Spans steps.length levels.length
  entries :
    ∀ key, memory.failed[key]? = some true →
      ∃ op ≤ steps.length, ∃ cursor ≤ levels.length,
        memory.key op cursor = key
          ∧ ¬ Pattern.Fits (steps.drop op)
            (levels.drop cursor)

/- Every entry of a table belongs to a place. -/
theorem Spans.exists_place
    {steps levels key : Nat}
    (hSpans : memory.Spans steps levels)
    (hKey : key < memory.failed.size) :
    ∃ op ≤ steps, ∃ cursor ≤ levels,
      memory.key op cursor = key := by
  rw [hSpans.size] at hKey
  have hOp : key / (levels + 1) < steps + 1 :=
    (Nat.div_lt_iff_lt_mul (Nat.succ_pos levels)).mpr hKey
  have hCursor : key % (levels + 1) < levels + 1 :=
    Nat.mod_lt key (Nat.succ_pos levels)
  refine ⟨key / (levels + 1), Nat.le_of_lt_succ hOp,
    key % (levels + 1), Nat.le_of_lt_succ hCursor, ?_⟩
  rw [Memory.key, hSpans.width]
  exact Nat.div_add_mod' key (levels + 1)

/-
  A table is sound place by place if and only if it is sound
  entry by entry, because entries and places correspond.
-/
theorem sound_iff_holdsOnlyFailures :
    memory.Sound steps levels ↔
      memory.HoldsOnlyFailures steps levels := by
  constructor
  · intro hSound
    refine ⟨hSound.spans, ?_⟩
    intro key hKey
    have hLess := (Array.getElem?_eq_some_iff.mp hKey).1
    rcases hSound.spans.exists_place hLess with
      ⟨op, hOp, cursor, hCursor, rfl⟩
    refine ⟨op, hOp, cursor, hCursor, rfl, ?_⟩
    exact hSound.failed op hOp cursor hCursor
      (hasFailed_iff.mpr hKey)
  · intro hHolds
    refine ⟨hHolds.spans.width, hHolds.spans.size, ?_⟩
    intro op hOp cursor hCursor hFailed
    rcases hHolds.entries _ (hasFailed_iff.mp hFailed) with
      ⟨op', _, cursor', hCursor', hKey, hFits⟩
    rcases key_inj hHolds.spans.width hCursor' hCursor hKey
      with ⟨rfl, rfl⟩
    exact hFits

end Memory

end HierPath

------------------------------------------------------------
-- Searches With A Table
------------------------------------------------------------

namespace HierPath

namespace Pattern

open Search (Phase)

variable {source : Path}
variable {pattern : Pattern}
variable {levels : List String}
variable {op op' cursor cursor' : Nat}
variable {memory memory' : Memory}

/-
  Attempts of one match have places with keys in the table,
  and places that differ have keys that differ.
-/
theorem Visits.key_inj
    (hCompile : compile source = .ok pattern)
    (hVisits :
      pattern.Visits levels .attempt op cursor memory)
    (hVisits' :
      pattern.Visits levels .attempt op' cursor' memory')
    (hKey :
      memory.key op cursor = memory'.key op' cursor') :
    op = op' ∧ cursor = cursor' := by
  rcases hVisits.sound hCompile with ⟨_, hCursor, hMemory⟩
  rcases hVisits'.sound hCompile with
    ⟨_, hCursor', hMemory'⟩
  have hSame :
      memory'.key op' cursor' = memory.key op' cursor' := by
    unfold Memory.key
    rw [hMemory.width, hMemory'.width]
  exact Memory.key_inj hMemory.width hCursor hCursor'
    (hKey.trans hSame)

/-
  A search that finds a sound table gives the answer of the
  plain search, and it leaves a sound table.
-/
theorem attemptFrom_eq_plain
    (hCompile : compile source = .ok pattern)
    (hOp : op ≤ pattern.length)
    (hCursor : cursor ≤ levels.length)
    (hHolds :
      memory.HoldsOnlyFailures pattern.steps levels) :
    let found := pattern.attemptFrom levels op cursor memory
    found.1 = Search.plain (pattern.steps.drop op)
        (levels.drop cursor)
      ∧ found.2.HoldsOnlyFailures pattern.steps levels := by
  have hAnswers := answers_attemptFrom hCompile hOp hCursor
    (Memory.sound_iff_holdsOnlyFailures.mpr hHolds)
  refine ⟨?_,
    Memory.sound_iff_holdsOnlyFailures.mp hAnswers.2⟩
  rw [Bool.eq_iff_iff, hAnswers.1, Search.plain_iff_fits]

/-
  At every attempt of a match, the place is in range, its
  key is in the table and its own, and the table holds
  failures only. Wherever a walk is, the bound that it may
  look up is there. Every attempt at a place in range that
  finds a table of failures answers as the plain search does
  and leaves a table of failures.
-/
theorem table_is_sound
    (hCompile : compile source = .ok pattern)
    (levels : List String) :
    (∀ op cursor memory,
      pattern.Visits levels .attempt op cursor memory →
        op ≤ pattern.length ∧ cursor ≤ levels.length
          ∧ memory.key op cursor < memory.failed.size
          ∧ memory.HoldsOnlyFailures pattern.steps levels)
      ∧ (∀ op cursor memory op' cursor' memory',
        pattern.Visits levels .attempt op cursor memory →
        pattern.Visits levels .attempt op' cursor' memory' →
        memory.key op cursor = memory'.key op' cursor' →
          op = op' ∧ cursor = cursor')
      ∧ (∀ op cursor memory,
        pattern.Visits levels .walk op cursor memory →
          op ≤ pattern.length ∧ cursor ≤ levels.length
            ∧ (op < pattern.length →
              pattern.needs[op + 1]? =
                some (singles
                  (pattern.steps.drop (op + 1)))))
      ∧ (∀ op ≤ pattern.length, ∀ cursor ≤ levels.length,
        ∀ memory : Memory,
          memory.HoldsOnlyFailures pattern.steps levels →
            let found :=
              pattern.attemptFrom levels op cursor memory
            found.1 = Search.plain (pattern.steps.drop op)
                (levels.drop cursor)
              ∧ found.2.HoldsOnlyFailures pattern.steps
                levels)
      ∧ (∀ op cursor,
        (op, cursor) ∈ (pattern.matching levels).2.walked ↔
          ∃ memory,
            pattern.Visits levels .attempt op cursor memory
              ∧ memory.hasFailed op cursor = false) := by
  refine ⟨?_, ?_, ?_, ?_, ?_⟩
  · intro op cursor memory hVisits
    rcases hVisits.sound hCompile with
      ⟨hOp, hCursor, hMemory⟩
    refine ⟨hOp, hCursor, ?_,
      Memory.sound_iff_holdsOnlyFailures.mp hMemory⟩
    rw [hMemory.size]
    exact Memory.key_lt hMemory.width hOp hCursor
  · intro op cursor memory op' cursor' memory' hVisits
      hVisits' hKey
    exact hVisits.key_inj hCompile hVisits' hKey
  · intro op cursor memory hVisits
    rcases hVisits.sound hCompile with ⟨hOp, hCursor, _⟩
    exact ⟨hOp, hCursor, needs_of_compile hCompile⟩
  · intro op hOp cursor hCursor memory hHolds
    exact attemptFrom_eq_plain hCompile hOp hCursor hHolds
  · exact fun _ _ => mem_walked_iff hCompile

/-
  Two walks come to the last step at the same level. At the
  second attempt there, the table holds its place. The step
  does not fit the level left, and the answer is that of the
  plain search.
-/
theorem table_is_sound_of_place_that_failed :
    ∃ pattern memory,
      compile ⟨.absolute, ["**", "a", "**", "b"]⟩ =
        .ok pattern
        ∧ pattern.Visits ["a", "a", "c"] .attempt 3 2
          memory
        ∧ memory.failed[memory.key 3 2]? = some true
        ∧ memory.key 3 2 < memory.failed.size
        ∧ memory.HoldsOnlyFailures pattern.steps
          ["a", "a", "c"]
        ∧ (pattern.attemptFrom ["a", "a", "c"] 3 2
          memory).1 = Search.plain [.literal "b"] ["c"] := by
  let pattern : Pattern :=
    ⟨⟨.absolute, ["**", "a", "**", "b"]⟩,
      [.recursive, .literal "a", .recursive, .literal "b"],
      #[2, 2, 1, 1, 0]⟩
  let levels : List String := ["a", "a", "c"]
  have hCompile :
      compile ⟨.absolute, ["**", "a", "**", "b"]⟩ =
        .ok pattern := by
    decide
  have hStart : pattern.Visits levels .attempt 0 0
      (Memory.fresh 4 3) :=
    .start (by decide)
  have hFirst := (hStart.enter (by decide)).split
    rfl rfl (by decide) (by decide)
  -- The first walk behind `**` fails, and the second comes
  -- to a place on its way.
  have hSecond := hFirst.retry
    (Prod.ext (by decide) rfl) (by decide)
  have hWalk := (hSecond.enter (by decide)).advance
    rfl rfl rfl (by decide)
  have hAgain := hWalk.split rfl rfl (by decide) (by decide)
  rcases table_is_sound hCompile levels with
    ⟨hAttempts, _, _, hPlain, _⟩
  rcases hAttempts 3 2 _ hAgain with
    ⟨hOp, hCursor, hKey, hHolds⟩
  exact ⟨pattern, _, hCompile, hAgain, by decide, hKey,
    hHolds, (hPlain 3 hOp 2 hCursor _ hHolds).1⟩

end Pattern

end HierPath
