import HierPath.Proofs.Path.Climbing
import HierPath.Proofs.Pattern.Search

/-
  Patterns one after another.

  Levels fit the steps of two patterns, one list after the
  other, exactly when they can be cut into levels that fit
  the first and levels that fit the second. A joined path
  compiles to the steps of its parts, so it matches what its
  parts match one after the other. Where the cut lies inside
  levels that a recursive step takes, any place of it does.

  A recursive step takes whatever is left. At the end of a
  pattern it lets the pattern match some path on the way up,
  and in front of it the end of a path.

  Key theorems include:
    * `Pattern.fits_append`
    * `Pattern.compile_join_eq_ok_iff`
    * `Pattern.isMatchLevels_join`
    * `Pattern.isMatch_below_recursive`
    * `Pattern.isMatch_above_recursive`
    * `Pattern.join_concatenates`
-/

------------------------------------------------------------
-- Steps One After Another
------------------------------------------------------------

namespace HierPath

namespace Pattern

/-
  Levels fit steps in a row when some cut leaves levels for
  the steps on both sides.
-/
theorem fits_append
    {steps others : List Step}
    {levels : List String} :
    Fits (steps ++ others) levels ↔
      ∃ n ≤ levels.length,
        Fits steps (levels.take n)
          ∧ Fits others (levels.drop n) := by
  constructor
  · intro hFits
    rcases hFits with ⟨blocks, hCovers, rfl⟩
    let count := steps.length
    have hFront :
        List.Forall₂ Step.Covers steps
          (blocks.take count) := by
      have hTake := List.forall₂_take count hCovers
      rwa [List.take_left] at hTake
    have hBack :
        List.Forall₂ Step.Covers others
          (blocks.drop count) := by
      have hDrop := List.forall₂_drop count hCovers
      rwa [List.drop_left] at hDrop
    have hCut :
        blocks.flatten =
          (blocks.take count).flatten
            ++ (blocks.drop count).flatten := by
      rw [← List.flatten_append, List.take_append_drop]
    refine ⟨(blocks.take count).flatten.length, ?_, ?_, ?_⟩
    · rw [hCut, List.length_append]
      exact Nat.le_add_right _ _
    · rw [hCut, List.take_left]
      exact ⟨_, hFront, rfl⟩
    · rw [hCut, List.drop_left]
      exact ⟨_, hBack, rfl⟩
  · intro hCut
    rcases hCut with
      ⟨n, _, ⟨front, hFront, hTake⟩,
        ⟨back, hBack, hDrop⟩⟩
    refine ⟨front ++ back,
      List.rel_append hFront hBack, ?_⟩
    rw [List.flatten_append, hTake, hDrop,
      List.take_append_drop]

/-
  A joined path compiles when both its parts do, and then to
  the steps of the first and those of the second.
-/
theorem compile_join_eq_ok_iff
    {p q : Path}
    {joined : Pattern} :
    compile (p.join q) = .ok joined ↔
      ∃ first second,
        compile p = .ok first ∧ compile q = .ok second
          ∧ joined =
            ⟨p.join q, first.steps ++ second.steps,
              (needsOf (first.steps
                ++ second.steps)).toArray⟩ := by
  unfold compile Path.join
  rw [List.mapM_append]
  cases p.segments.mapM Step.ofSegment with
  | error cause =>
      simp [bind, Except.bind]
  | ok steps =>
      cases q.segments.mapM Step.ofSegment with
      | error cause =>
          simp [bind, Except.bind]
      | ok others =>
          simp [bind, Except.bind, pure, Except.pure,
            eq_comm]

/-
  A joined pattern matches levels that can be cut into
  levels that its parts match.
-/
theorem isMatchLevels_join
    {p q : Path}
    {first second joined : Pattern}
    (hFirst : compile p = .ok first)
    (hSecond : compile q = .ok second)
    (hJoined : compile (p.join q) = .ok joined)
    (levels : List String) :
    joined.isMatchLevels levels = true ↔
      ∃ n ≤ levels.length,
        first.isMatchLevels (levels.take n) = true
          ∧ second.isMatchLevels (levels.drop n) = true := by
  have hSteps :
      joined.steps = first.steps ++ second.steps := by
    rcases compile_join_eq_ok_iff.mp hJoined with
      ⟨_, _, hOne, hOther, rfl⟩
    cases hFirst.symm.trans hOne
    cases hSecond.symm.trans hOther
    rfl
  simp only [isMatchLevels_iff_fits hFirst,
    isMatchLevels_iff_fits hSecond,
    isMatchLevels_iff_fits hJoined, hSteps, fits_append]

/- Paths are matched by their anchors and their levels. -/
theorem isMatchFrom_iff
    {source : Path}
    {pattern : Pattern}
    (hCompile : compile source = .ok pattern)
    (candidate : Path)
    (start : Nat) :
    pattern.isMatchFrom candidate start = true ↔
      candidate.anchor = source.anchor
        ∧ start ≤ candidate.depth
        ∧ pattern.isMatchLevels
            (candidate.segments.drop start) = true := by
  rw [isMatchFrom, (of_compile hCompile).1]
  simp only [Bool.and_eq_true, decide_eq_true_eq, and_assoc]

end Pattern

end HierPath

------------------------------------------------------------
-- Any Number Of Levels
------------------------------------------------------------

namespace HierPath

namespace Pattern

/- The pattern of one recursive step. -/
theorem compile_recursive
    (anchor : Anchor) :
    compile ⟨anchor, ["**"]⟩ =
      .ok ⟨⟨anchor, ["**"]⟩, [.recursive], #[0, 0]⟩ :=
  rfl

/- It matches all levels. -/
theorem isMatchLevels_recursive
    (anchor : Anchor)
    (levels : List String) :
    isMatchLevels
        ⟨⟨anchor, ["**"]⟩, [.recursive], #[0, 0]⟩ levels =
      true := by
  rw [isMatchLevels_iff_fits (compile_recursive anchor)]
  exact fits_recursive_last rfl levels

/-
  With a recursive step at its end, a pattern matches the
  paths below those that it matches without it.
-/
theorem isMatch_below_recursive
    {p : Path}
    {first trailing : Pattern}
    (hFirst : compile p = .ok first)
    (hTrailing : compile (p.below "**") = .ok trailing)
    (candidate : Path) :
    trailing.isMatch candidate = true ↔
      ∃ above ∈ candidate.ancestors.toList,
        first.isMatch above = true := by
  have hLevels :=
    isMatchLevels_join hFirst (compile_recursive p.anchor)
      hTrailing candidate.segments
  simp only [isMatchLevels_recursive, and_true] at hLevels
  simp only [isMatch, isMatchFrom_iff hFirst,
    isMatchFrom_iff hTrailing, List.drop_zero,
    Nat.zero_le, true_and, hLevels]
  constructor
  · intro hMatch
    rcases hMatch with ⟨hAnchor, n, hDepth, hTop⟩
    have hAbove :=
      (Path.mem_toList_ancestors_iff candidate _).mpr
        ⟨n, hDepth, rfl⟩
    exact ⟨candidate.top n, hAbove, hAnchor, hTop⟩
  · intro hAncestor
    rcases hAncestor with ⟨above, hAbove, hAnchor, hTop⟩
    rcases (Path.mem_toList_ancestors_iff candidate _).mp
      hAbove with ⟨n, hDepth, rfl⟩
    exact ⟨hAnchor, n, hDepth, hTop⟩

/-
  With a recursive step in front, a pattern matches the
  paths that it matches from some position on without it.
-/
theorem isMatch_above_recursive
    {p : Path}
    {first leading : Pattern}
    (hFirst : compile p = .ok first)
    (hLeading :
      compile ⟨p.anchor, "**" :: p.segments⟩ =
        .ok leading)
    (candidate : Path) :
    leading.isMatch candidate = true ↔
      ∃ start ≤ candidate.depth,
        first.isMatchFrom candidate start = true := by
  have hLevels :=
    isMatchLevels_join (compile_recursive p.anchor) hFirst
      hLeading candidate.segments
  simp only [isMatchLevels_recursive, true_and] at hLevels
  simp only [isMatch, isMatchFrom_iff hFirst,
    isMatchFrom_iff hLeading, List.drop_zero,
    Nat.zero_le, true_and, hLevels]
  constructor
  · intro hMatch
    rcases hMatch with ⟨hAnchor, start, hDepth, hRest⟩
    exact ⟨start, hDepth, hAnchor, hDepth, hRest⟩
  · intro hFrom
    rcases hFrom with ⟨start, hDepth, hAnchor, _, hRest⟩
    exact ⟨hAnchor, start, hDepth, hRest⟩

/-
  Where two paths compile, their joined path does, and it
  matches what they match one after the other. So a
  recursive step at the end lets a pattern match a path on
  the way up, and one in front lets it match from a position
  on.
-/
theorem join_concatenates
    {p q : Path}
    {first second : Pattern}
    (hFirst : compile p = .ok first)
    (hSecond : compile q = .ok second) :
    (∃ joined, compile (p.join q) = .ok joined
      ∧ ∀ levels,
        joined.isMatchLevels levels = true ↔
          ∃ n ≤ levels.length,
            first.isMatchLevels (levels.take n) = true
              ∧ second.isMatchLevels (levels.drop n) =
                true)
      ∧ (∃ trailing,
        compile (p.below "**") = .ok trailing
          ∧ ∀ candidate,
            trailing.isMatch candidate = true ↔
              ∃ above ∈ candidate.ancestors.toList,
                first.isMatch above = true)
      ∧ (∃ leading,
        compile ⟨p.anchor, "**" :: p.segments⟩ = .ok leading
          ∧ ∀ candidate,
            leading.isMatch candidate = true ↔
              ∃ start ≤ candidate.depth,
                first.isMatchFrom candidate start =
                  true) := by
  have hRecursive := compile_recursive p.anchor
  refine ⟨?_, ?_, ?_⟩
  · have hJoined := compile_join_eq_ok_iff.mpr
      ⟨first, second, hFirst, hSecond, rfl⟩
    exact ⟨_, hJoined,
      isMatchLevels_join hFirst hSecond hJoined⟩
  · have hTrailing := compile_join_eq_ok_iff.mpr
      ⟨first, _, hFirst, hRecursive, rfl⟩
    exact ⟨_, hTrailing,
      isMatch_below_recursive hFirst hTrailing⟩
  · have hLeading := compile_join_eq_ok_iff.mpr
      ⟨_, first, hRecursive, hFirst, rfl⟩
    exact ⟨_, hLeading,
      isMatch_above_recursive hFirst hLeading⟩

/-
  Recursive steps meet where the first path ends and the
  second one starts, and levels are cut inside what both
  can take.
-/
theorem join_concatenates_of_meeting_recursive_steps :
    ∃ first second joined,
      compile ⟨.absolute, ["a*", "**"]⟩ = .ok first
        ∧ compile ⟨.relative, ["**", "z"]⟩ = .ok second
        ∧ compile ⟨.absolute, ["a*", "**", "**", "z"]⟩ =
          .ok joined
        ∧ joined.isMatchLevels ["ab", "m", "n", "z"] = true
        ∧ joined.isMatchLevels ["ab"] = false := by
  let first : Pattern :=
    ⟨⟨.absolute, ["a*", "**"]⟩,
      [.glob ⟨[['a'], []]⟩, .recursive], #[1, 0, 0]⟩
  let second : Pattern :=
    ⟨⟨.relative, ["**", "z"]⟩,
      [.recursive, .literal "z"], #[1, 1, 0]⟩
  have hFirst :
      compile ⟨.absolute, ["a*", "**"]⟩ = .ok first := by
    decide
  have hSecond :
      compile ⟨.relative, ["**", "z"]⟩ = .ok second := by
    decide
  rcases (join_concatenates hFirst hSecond).1 with
    ⟨joined, hJoined, hLevels⟩
  refine ⟨first, second, joined, hFirst, hSecond, hJoined,
    ?_, ?_⟩
  · exact (hLevels ["ab", "m", "n", "z"]).mpr
      ⟨2, by decide, by decide +kernel, by decide +kernel⟩
  · rw [Bool.eq_false_iff, ne_eq, hLevels ["ab"]]
    decide +kernel

end Pattern

end HierPath
