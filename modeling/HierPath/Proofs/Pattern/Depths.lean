import HierPath.Proofs.Pattern.OwnPath

/-
  How deep the paths are that a pattern matches.

  The segments other than `**` fit the steps, with nothing
  left for the recursive ones, and no fewer levels do. So
  the least number of levels is reached by some path.

  Where no step is recursive, each step takes one level, and
  no other number of levels fits. A recursive step can take
  any levels on top of those it has, so there every number
  from the least on is reached.

  Key definitions include:
    * `Pattern.HasMatchOfDepth`

  Key theorems include:
    * `Pattern.exists_fewest_fits`
    * `Pattern.length_eq_of_fits`
    * `Pattern.exists_stretch_of_fits`
    * `Pattern.hasMatchOfDepth_iff`
-/

------------------------------------------------------------
-- Numbers Of Levels
------------------------------------------------------------

namespace HierPath

namespace Pattern

variable {names levels : List String}
variable {steps : List Step}

/-
  Some of the segments, one for each single-level step, fit
  the steps.
-/
theorem exists_fewest_fits
    (hSteps : StepsOf names steps) :
    ∃ levels, levels.length = singles steps
      ∧ levels ⊆ names ∧ Fits steps levels := by
  induction hSteps with
  | nil =>
      exact ⟨[], rfl, List.Subset.refl [], fits_nil.mpr rfl⟩
  | @cons name step names steps hName _ ih =>
      rcases ih with ⟨levels, hLength, hLevels, hFits⟩
      cases hStep : step.isRecursive with
      | true =>
          refine ⟨levels, ?_, ?_, ?_⟩
          · simp [singles_cons, hStep, hLength]
          · exact List.subset_cons_of_subset name hLevels
          · exact fits_cons.mpr
              ⟨[], levels,
                Step.covers_of_isRecursive hStep [], hFits,
                rfl⟩
      | false =>
          refine ⟨name :: levels, ?_, ?_, ?_⟩
          · simp [singles_cons, hStep, hLength,
              Nat.add_comm]
          · exact List.cons_subset_cons name hLevels
          · exact fits_cons_self hName hFits

/- Without recursive steps, every step takes one level. -/
theorem length_eq_of_fits
    (hSingle : .recursive ∉ steps)
    (hFits : Fits steps levels) :
    levels.length = singles steps := by
  induction steps generalizing levels with
  | nil =>
      rw [fits_nil.mp hFits]
      rfl
  | cons step rest ih =>
      rcases List.ne_and_not_mem_of_not_mem_cons hSingle with
        ⟨hStep, hRest⟩
      have hSingleStep : step.isRecursive = false := by
        cases step with
        | recursive => exact absurd rfl hStep
        | glob wildcard => rfl
        | literal name => rfl
      rcases (fits_single hSingleStep).mp hFits with
        ⟨level, after, rfl, _, hAfter⟩
      rw [List.length_cons, ih hRest hAfter, singles_cons,
        hSingleStep]
      exact Nat.add_comm _ _

/-
  Levels that fit can be stretched at some place, namely
  where a recursive step has taken its own.
-/
theorem exists_stretch_of_fits
    (hRecursive : .recursive ∈ steps)
    (hFits : Fits steps levels) :
    ∃ before after, levels = before ++ after
      ∧ ∀ block, Fits steps (before ++ block ++ after) := by
  induction steps generalizing levels with
  | nil =>
      cases hRecursive
  | cons step rest ih =>
      rcases fits_cons.mp hFits with
        ⟨taken, left, hTaken, hLeft, rfl⟩
      rcases List.mem_cons.mp hRecursive with rfl | hLater
      · refine ⟨taken, left, rfl, fun block => ?_⟩
        exact fits_cons.mpr
          ⟨taken ++ block, left,
            Step.covers_of_isRecursive rfl _, hLeft, rfl⟩
      · rcases ih hLater hLeft with
          ⟨before, after, rfl, hStretch⟩
        refine ⟨taken ++ before, after,
          (List.append_assoc _ _ _).symm, fun block => ?_⟩
        exact fits_cons.mpr
          ⟨taken, before ++ block ++ after, hTaken,
            hStretch block, by simp⟩

end Pattern

end HierPath

------------------------------------------------------------
-- Depths Of Matches
------------------------------------------------------------

namespace HierPath

namespace Pattern

/- A path of the pattern's anchor, of some depth, matches. -/
def HasMatchOfDepth
    (pattern : Pattern)
    (n : Nat) : Prop :=
  ∃ candidate : Path, candidate.Constructible
    ∧ candidate.anchor = pattern.source.anchor
    ∧ candidate.depth = n
    ∧ pattern.isMatch candidate = true

variable {source : Path}
variable {pattern : Pattern}

/- Depths of matches are numbers of names that fit. -/
private theorem hasMatchOfDepth_iff_fits
    (hCompile : compile source = .ok pattern)
    (n : Nat) :
    pattern.HasMatchOfDepth n ↔
      ∃ levels, levels.length = n
        ∧ (∀ level ∈ levels, Segment.isName level = true)
        ∧ Fits pattern.steps levels := by
  have hSource := (of_compile hCompile).1
  constructor
  · rintro ⟨candidate, hMade, _, hDepth, hMatch⟩
    exact ⟨candidate.segments, hDepth, hMade.named,
      ((isMatch_iff hCompile candidate).mp hMatch).2⟩
  · rintro ⟨levels, hLength, hNames, hFits⟩
    have hNamed : Path.Named ⟨source.anchor, levels⟩ :=
      hNames
    exact ⟨_, hNamed.constructible, by rw [hSource], hLength,
      (isMatch_iff hCompile _).mpr ⟨rfl, hFits⟩⟩

/- The least number of levels is the depth of a match. -/
private theorem hasMatchOfDepth_minLevels
    (hSource : source.Constructible)
    (hCompile : compile source = .ok pattern) :
    pattern.HasMatchOfDepth pattern.minLevels := by
  rcases exists_fewest_fits (steps_of_compile hCompile) with
    ⟨levels, hLength, hLevels, hFits⟩
  rw [hasMatchOfDepth_iff_fits hCompile,
    minLevels_of_compile hCompile]
  exact ⟨levels, hLength,
    fun level hLevel => hSource.named level (hLevels hLevel),
    hFits⟩

/- With a recursive step, so is every greater number. -/
private theorem hasMatchOfDepth_of_le
    (hCompile : compile source = .ok pattern)
    (hRecursive : .recursive ∈ pattern.steps)
    {n more : Nat}
    (hMore : n ≤ more)
    (hMatch : pattern.HasMatchOfDepth n) :
    pattern.HasMatchOfDepth more := by
  rw [hasMatchOfDepth_iff_fits hCompile] at hMatch ⊢
  rcases hMatch with ⟨levels, hLength, hNames, hFits⟩
  rcases exists_stretch_of_fits hRecursive hFits with
    ⟨before, after, rfl, hStretch⟩
  let filler := List.replicate (more - n) "x"
  refine ⟨before ++ filler ++ after, ?_, ?_,
    hStretch filler⟩
  · simp only [List.length_append, filler,
      List.length_replicate] at hLength ⊢
    omega
  · simp only [List.mem_append, or_imp, forall_and]
      at hNames ⊢
    refine ⟨⟨hNames.1, fun level hFiller => ?_⟩, hNames.2⟩
    rw [List.eq_of_mem_replicate hFiller]
    rfl

/-
  The number of levels that a pattern keeps is the exact
  lower bound: it is the one depth of matching paths where
  no step is recursive, and otherwise the depths are this
  number and all greater ones.
-/
theorem hasMatchOfDepth_iff
    (hSource : source.Constructible)
    (hCompile : compile source = .ok pattern)
    (n : Nat) :
    (.recursive ∉ pattern.steps →
      (pattern.HasMatchOfDepth n ↔ n = pattern.minLevels))
      ∧ (.recursive ∈ pattern.steps →
        (pattern.HasMatchOfDepth n ↔
          pattern.minLevels ≤ n)) := by
  have hFewest := hasMatchOfDepth_minLevels hSource hCompile
  constructor
  · intro hSingle
    constructor
    · intro hMatch
      rcases (hasMatchOfDepth_iff_fits hCompile n).mp hMatch
        with ⟨levels, rfl, _, hFits⟩
      rw [minLevels_of_compile hCompile]
      exact length_eq_of_fits hSingle hFits
    · rintro rfl
      exact hFewest
  · intro hRecursive
    constructor
    · intro hMatch
      rcases (hasMatchOfDepth_iff_fits hCompile n).mp hMatch
        with ⟨levels, rfl, _, hFits⟩
      rw [minLevels_of_compile hCompile]
      exact singles_le_of_fits hFits
    · intro hMore
      exact hasMatchOfDepth_of_le hCompile hRecursive hMore
        hFewest

/-
  A glob between two recursive steps needs one level, and a
  path of three levels matches as well.
-/
theorem hasMatchOfDepth_iff_of_inner_glob :
    ∃ pattern,
      compile ⟨.relative, ["**", "a*", "**"]⟩ = .ok pattern
        ∧ pattern.minLevels = 1
        ∧ pattern.HasMatchOfDepth 3
        ∧ ¬ pattern.HasMatchOfDepth 0 := by
  have hSource :
      Path.Constructible ⟨.relative, ["**", "a*", "**"]⟩ := by
    apply Path.Named.constructible
    simp [Path.Named, Segment.isName]
  have hCompile :
      compile ⟨.relative, ["**", "a*", "**"]⟩ =
        .ok ⟨⟨.relative, ["**", "a*", "**"]⟩,
          [.recursive, .glob ⟨[['a'], []]⟩, .recursive],
          #[1, 1, 0, 0]⟩ := by
    decide
  have hDepths (n : Nat) :=
    (hasMatchOfDepth_iff hSource hCompile n).2 (by simp)
  refine ⟨_, hCompile, rfl, (hDepths 3).mpr (by decide), ?_⟩
  rw [hDepths 0]
  decide

end Pattern

end HierPath
