import HierPath.Proofs.Pattern.Search

/-
  What a search does to its memory. It adds walks and tests
  to the record and failures to the table, and it takes
  nothing away. So the memory of a piece of a search is a
  part of the memory of the whole.

  Key definitions include:
    * `Memory.Spans`
    * `Memory.Adds`
    * `Memory.GrowsTo`
    * `Pattern.matching`

  Key theorems include:
    * `Memory.Adds.trans`
    * `Memory.hasFailed_fail_self`
    * `Pattern.fst_matching`
-/

------------------------------------------------------------
-- What Is Added To A Memory
------------------------------------------------------------

namespace HierPath

namespace Memory

/- The table has an entry for each of so many places. -/
structure Spans
    (steps levels : Nat)
    (memory : Memory) : Prop where
  width : memory.width = levels + 1
  size : memory.failed.size = (steps + 1) * (levels + 1)

/-
  A search turns the first memory into the second. It has
  walked from some places and made some tests, the latest
  first, and has forgotten nothing.
-/
structure Adds
    (before after : Memory)
    (walks tests : List (Nat × Nat)) : Prop where
  width : after.width = before.width
  size : after.failed.size = before.failed.size
  keeps :
    ∀ op cursor, before.hasFailed op cursor = true →
      after.hasFailed op cursor = true
  walked : after.walked = walks ++ before.walked
  tested : after.tested = tests ++ before.tested

variable {memory before between after : Memory}
variable {walks walks' tests tests' : List (Nat × Nat)}
variable {steps levels op cursor : Nat}

/- The memory at the start has all entries. -/
theorem spans_fresh
    (steps levels : Nat) :
    (fresh steps levels).Spans steps levels :=
  ⟨rfl, Array.size_replicate⟩

/- A sound memory has an entry for each place. -/
theorem Sound.spans
    {steps : List Step}
    {levels : List String}
    (hMemory : memory.Sound steps levels) :
    memory.Spans steps.length levels.length :=
  ⟨hMemory.width, hMemory.size⟩

/- Searching keeps the shape of the table. -/
theorem Adds.spans
    (hAdds : before.Adds after walks tests)
    (hSpans : before.Spans steps levels) :
    after.Spans steps levels :=
  ⟨hAdds.width.trans hSpans.width,
    hAdds.size.trans hSpans.size⟩

/- What has not failed later has not failed before. -/
theorem Adds.not_failed
    (hAdds : before.Adds after walks tests)
    (hNew : after.hasFailed op cursor = false) :
    before.hasFailed op cursor = false := by
  cases hBefore : before.hasFailed op cursor with
  | false => rfl
  | true =>
      rw [hAdds.keeps op cursor hBefore] at hNew
      cases hNew

/- Nothing is done, and nothing is added. -/
theorem Adds.refl
    (memory : Memory) :
    memory.Adds memory [] [] :=
  ⟨rfl, rfl, fun _ _ hFailed => hFailed, rfl, rfl⟩

/- The later work is put in front of the earlier. -/
theorem Adds.trans
    (hFirst : before.Adds between walks tests)
    (hSecond : between.Adds after walks' tests') :
    before.Adds after (walks' ++ walks)
      (tests' ++ tests) where
  width := hSecond.width.trans hFirst.width
  size := hSecond.size.trans hFirst.size
  keeps := by
    intro op cursor hFailed
    exact hSecond.keeps op cursor
      (hFirst.keeps op cursor hFailed)
  walked := by
    rw [hSecond.walked, hFirst.walked, List.append_assoc]
  tested := by
    rw [hSecond.tested, hFirst.tested, List.append_assoc]

/- A walk is added to the record. -/
theorem adds_noteWalk
    (memory : Memory)
    (op cursor : Nat) :
    memory.Adds (memory.noteWalk op cursor)
      [(op, cursor)] [] :=
  ⟨rfl, rfl, fun _ _ hFailed => hFailed, rfl, rfl⟩

/- A test is added to the record. -/
theorem adds_noteTest
    (memory : Memory)
    (op cursor : Nat) :
    memory.Adds (memory.noteTest op cursor)
      [] [(op, cursor)] :=
  ⟨rfl, rfl, fun _ _ hFailed => hFailed, rfl, rfl⟩

/- A failure is no work, and the others are kept. -/
theorem adds_fail
    (memory : Memory)
    (op cursor : Nat) :
    memory.Adds (memory.fail op cursor) [] [] where
  width := rfl
  size := Array.size_setIfInBounds
  keeps := by
    intro op' cursor' hFailed
    exact hasFailed_fail_iff.mpr (Or.inr hFailed)
  walked := rfl
  tested := rfl

/- A place in range that fails is remembered. -/
theorem hasFailed_fail_self
    (hSpans : memory.Spans steps levels)
    (hOp : op ≤ steps)
    (hCursor : cursor ≤ levels) :
    (memory.fail op cursor).hasFailed op cursor = true := by
  have hLess :
      memory.key op cursor < memory.failed.size := by
    rw [hSpans.size]
    exact key_lt hSpans.width hOp hCursor
  exact hasFailed_fail_iff.mpr (Or.inl ⟨rfl, hLess⟩)

end Memory

end HierPath

------------------------------------------------------------
-- Memories That Grow
------------------------------------------------------------

namespace HierPath

namespace Memory

/- The second memory has come out of the first by work. -/
def GrowsTo
    (before after : Memory) : Prop :=
  ∃ walks tests, before.Adds after walks tests

variable {before between after memory : Memory}
variable {place : Nat × Nat}

/- Without work, a memory stays as it is. -/
theorem GrowsTo.refl
    (memory : Memory) :
    memory.GrowsTo memory :=
  ⟨[], [], Adds.refl memory⟩

/- Work follows work. -/
theorem GrowsTo.trans
    (hFirst : before.GrowsTo between)
    (hSecond : between.GrowsTo after) :
    before.GrowsTo after := by
  rcases hFirst with ⟨walks, tests, hAdds⟩
  rcases hSecond with ⟨walks', tests', hAdds'⟩
  exact ⟨_, _, hAdds.trans hAdds'⟩

/- No walk is taken off the record. -/
theorem GrowsTo.mem_walked
    (hGrows : before.GrowsTo after)
    (hPlace : place ∈ before.walked) :
    place ∈ after.walked := by
  rcases hGrows with ⟨walks, tests, hAdds⟩
  rw [hAdds.walked]
  exact List.mem_append_right walks hPlace

/- No test is taken off the record. -/
theorem GrowsTo.mem_tested
    (hGrows : before.GrowsTo after)
    (hPlace : place ∈ before.tested) :
    place ∈ after.tested := by
  rcases hGrows with ⟨walks, tests, hAdds⟩
  rw [hAdds.tested]
  exact List.mem_append_right tests hPlace

end Memory

end HierPath

------------------------------------------------------------
-- The Memory Of A Match
------------------------------------------------------------

namespace HierPath

namespace Pattern

/-
  A match of levels with the memory that it leaves. Where
  there are too few levels, there is no search.
-/
def matching
    (pattern : Pattern)
    (levels : List String) : Bool × Memory :=
  if levels.length < pattern.minLevels then
    (false, Memory.fresh pattern.length levels.length)
  else
    pattern.search levels

/- The memory is left by the match itself. -/
theorem fst_matching
    (pattern : Pattern)
    (levels : List String) :
    (pattern.matching levels).1 =
      pattern.isMatchLevels levels := by
  unfold matching isMatchLevels
  split <;> rfl

end Pattern

end HierPath
