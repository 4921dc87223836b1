import HierPath.Proofs.Pattern.Search

/-
  Patterns without stars.

  A segment without a star is a step that stands for itself
  alone. So a path without stars always compiles, and its
  pattern matches the levels of the path and no others.

  Key definitions include:
    * `Path.Starless`

  Key theorems include:
    * `Step.ofSegment_cases`
    * `Pattern.fits_literals`
    * `Pattern.isMatchLevels_of_starless`
-/

------------------------------------------------------------
-- Paths Without Stars
------------------------------------------------------------

namespace HierPath

namespace Path

/- No segment of the path has a star in it. -/
def Starless
    (p : Path) : Prop :=
  ∀ name ∈ p.segments, '*' ∉ name.toList

end Path

namespace Step

/- A segment without a star stands for itself. -/
theorem ofSegment_of_not_mem
    {segment : String}
    (hStarless : '*' ∉ segment.toList) :
    ofSegment segment = .ok (.literal segment) := by
  have hNotRecursive : segment ≠ "**" := by
    rintro rfl
    simp at hStarless
  rw [ofSegment, if_neg hNotRecursive, if_neg hStarless]

/-
  What a segment stands for: `**` for a recursive step, a
  segment with some other star for its glob, and a segment
  without a star for itself.
-/
theorem ofSegment_cases
    {segment : String}
    {step : Step}
    (hStep : ofSegment segment = .ok step) :
    (segment = "**" ∧ step = .recursive)
      ∨ (segment ≠ "**" ∧ '*' ∈ segment.toList
        ∧ step = .glob (.ofSegment segment))
      ∨ ('*' ∉ segment.toList ∧ step = .literal segment) := by
  by_cases hStar : '*' ∈ segment.toList
  · by_cases hRecursive : segment = "**"
    · subst hRecursive
      cases hStep
      exact Or.inl ⟨rfl, rfl⟩
    · rw [ofSegment, if_neg hRecursive, if_pos hStar] at hStep
      simp only at hStep
      split at hStep
      next =>
        cases hStep
        exact Or.inr (Or.inl ⟨hRecursive, hStar, rfl⟩)
      next =>
        cases hStep
  · cases hStep.symm.trans (ofSegment_of_not_mem hStar)
    exact Or.inr (Or.inr ⟨hStar, rfl⟩)

/- Only `**` becomes a recursive step. -/
theorem isRecursive_iff
    {segment : String}
    {step : Step}
    (hStep : ofSegment segment = .ok step) :
    step.isRecursive = true ↔ segment = "**" := by
  rcases ofSegment_cases hStep with
    ⟨rfl, rfl⟩ | ⟨hSingle, _, rfl⟩ | ⟨hStarless, rfl⟩
  · simp [isRecursive]
  · simp [isRecursive, hSingle]
  · have hSingle : segment ≠ "**" := by
      rintro rfl
      simp at hStarless
    simp [isRecursive, hSingle]

/- Only a segment without a star becomes a literal step. -/
theorem isLiteral_iff
    {segment : String}
    {step : Step}
    (hStep : ofSegment segment = .ok step) :
    step.isLiteral = true ↔ '*' ∉ segment.toList := by
  rcases ofSegment_cases hStep with
    ⟨rfl, rfl⟩ | ⟨_, hStar, rfl⟩ | ⟨hStarless, rfl⟩
  · simp [isLiteral]
  · simp [isLiteral, hStar]
  · simp [isLiteral, hStarless]

end Step

end HierPath

------------------------------------------------------------
-- Literal Steps
------------------------------------------------------------

namespace HierPath

namespace Pattern

/- Literal steps stand for their own names only. -/
theorem fits_literals
    {names levels : List String} :
    Fits (names.map .literal) levels ↔ levels = names := by
  induction names generalizing levels with
  | nil =>
      exact fits_nil
  | cons name rest ih =>
      rw [List.map_cons, fits_single rfl]
      simp only [ih, Step.accepts, decide_eq_true_eq]
      constructor
      · intro hFits
        rcases hFits with ⟨level, after, rfl, rfl, rfl⟩
        rfl
      · rintro rfl
        exact ⟨name, rest, rfl, rfl, rfl⟩

/- A path without stars compiles to its own names. -/
theorem compile_of_starless
    {source : Path}
    (hStarless : source.Starless) :
    ∃ pattern, compile source = .ok pattern
      ∧ pattern.steps = source.segments.map .literal := by
  have hSteps :
      source.segments.mapM Step.ofSegment =
        .ok (source.segments.map .literal) := by
    rcases source with ⟨anchor, names⟩
    induction names with
    | nil =>
        rfl
    | cons name rest ih =>
        have hName := Step.ofSegment_of_not_mem
          (hStarless name List.mem_cons_self)
        have hRest := ih fun other hOther =>
          hStarless other (List.mem_cons_of_mem name hOther)
        rw [List.mapM_cons, hName, hRest]
        rfl
  refine ⟨⟨source, source.segments.map .literal,
    (needsOf (source.segments.map .literal)).toArray⟩, ?_,
    rfl⟩
  rw [compile, hSteps]
  rfl

/- Its pattern matches its own levels only. -/
theorem isMatchLevels_of_starless
    {source : Path}
    (hStarless : source.Starless)
    {pattern : Pattern}
    (hCompile : compile source = .ok pattern)
    (levels : List String) :
    pattern.isMatchLevels levels = true ↔
      levels = source.segments := by
  rcases compile_of_starless hStarless with
    ⟨other, hOther, hSteps⟩
  cases hCompile.symm.trans hOther
  rw [isMatchLevels_iff_fits hCompile, hSteps,
    fits_literals]

end Pattern

end HierPath
