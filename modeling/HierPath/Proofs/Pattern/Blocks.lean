import HierPath.Pattern.Basic
import Mathlib.Data.List.Forall2

/-
  What the steps of a pattern stand for, said without a
  search: levels fit steps when they can be cut into blocks,
  one for each step in turn. A recursive step stands for any
  block, and any other step for one level that it accepts.

  The blocks that single-level steps stand for have one
  level each, so the number of these steps is a lower bound
  on the levels that fit. A compiled pattern keeps this
  bound for every position.

  Key definitions include:
    * `Step.Covers`
    * `Pattern.Fits`
    * `Pattern.singles`
    * `Pattern.StepsOf`

  Key theorems include:
    * `Pattern.fits_recursive`
    * `Pattern.fits_single`
    * `Pattern.singles_le_of_fits`
    * `Pattern.getElem?_needsOf`
    * `Pattern.steps_of_compile`
    * `Pattern.minLevels_of_compile`
-/

------------------------------------------------------------
-- Blocks Of Steps
------------------------------------------------------------

namespace HierPath

namespace Step

/-
  The step can stand for the block: a step that is not
  recursive stands for exactly one level that it accepts.
-/
def Covers
    (step : Step)
    (block : List String) : Prop :=
  step.isRecursive = false →
    ∃ level, block = [level] ∧ step.accepts level = true

/- A recursive step can stand for any block. -/
theorem covers_of_isRecursive
    {step : Step}
    (hRecursive : step.isRecursive = true)
    (block : List String) :
    step.Covers block := by
  intro hSingle
  rw [hRecursive] at hSingle
  cases hSingle

/- Any other step stands for a level that it accepts. -/
theorem covers_iff_of_single
    {step : Step}
    (hSingle : step.isRecursive = false)
    {block : List String} :
    step.Covers block ↔
      ∃ level, block = [level] ∧
        step.accepts level = true := by
  constructor
  · intro hCovers
    exact hCovers hSingle
  · intro hLevel _
    exact hLevel

end Step

end HierPath

------------------------------------------------------------
-- Levels That Fit
------------------------------------------------------------

namespace HierPath

namespace Pattern

/-
  The levels can be cut into consecutive blocks, one for
  each step in turn.
-/
def Fits
    (steps : List Step)
    (levels : List String) : Prop :=
  ∃ blocks : List (List String),
    List.Forall₂ Step.Covers steps blocks
      ∧ blocks.flatten = levels

/- No steps leave no levels. -/
theorem fits_nil
    {levels : List String} :
    Fits [] levels ↔ levels = [] := by
  constructor
  · intro hFits
    rcases hFits with ⟨blocks, hCovers, rfl⟩
    cases hCovers
    rfl
  · intro hNone
    subst hNone
    exact ⟨[], .nil, rfl⟩

/- The first step takes a block off the front. -/
theorem fits_cons
    {step : Step}
    {rest : List Step}
    {levels : List String} :
    Fits (step :: rest) levels ↔
      ∃ block after, step.Covers block
        ∧ Fits rest after ∧ block ++ after = levels := by
  constructor
  · intro hFits
    rcases hFits with ⟨blocks, hCovers, rfl⟩
    cases hCovers with
    | cons hBlock hBlocks =>
        exact ⟨_, _, hBlock, ⟨_, hBlocks, rfl⟩, rfl⟩
  · intro hSplit
    rcases hSplit with
      ⟨block, after, hBlock, ⟨blocks, hBlocks, rfl⟩, rfl⟩
    exact ⟨block :: blocks, .cons hBlock hBlocks, rfl⟩

/- A recursive step takes any number of levels. -/
theorem fits_recursive
    {step : Step}
    (hRecursive : step.isRecursive = true)
    {rest : List Step}
    {levels : List String} :
    Fits (step :: rest) levels ↔
      ∃ n ≤ levels.length, Fits rest (levels.drop n) := by
  rw [fits_cons]
  constructor
  · intro hSplit
    rcases hSplit with ⟨block, after, _, hAfter, rfl⟩
    refine ⟨block.length, by simp, ?_⟩
    rwa [List.drop_left]
  · intro hTaken
    rcases hTaken with ⟨n, _, hAfter⟩
    exact ⟨levels.take n, levels.drop n,
      Step.covers_of_isRecursive hRecursive _, hAfter,
      List.take_append_drop n levels⟩

/- A recursive step at the end takes all levels. -/
theorem fits_recursive_last
    {step : Step}
    (hRecursive : step.isRecursive = true)
    (levels : List String) :
    Fits [step] levels := by
  rw [fits_recursive hRecursive]
  refine ⟨levels.length, Nat.le_refl _, ?_⟩
  rw [List.drop_length, fits_nil]

/- Any other step takes one level that it accepts. -/
theorem fits_single
    {step : Step}
    (hSingle : step.isRecursive = false)
    {rest : List Step}
    {levels : List String} :
    Fits (step :: rest) levels ↔
      ∃ level after, levels = level :: after
        ∧ step.accepts level = true ∧ Fits rest after := by
  rw [fits_cons]
  constructor
  · intro hSplit
    rcases hSplit with ⟨block, after, hBlock, hAfter, rfl⟩
    rcases hBlock hSingle with ⟨level, rfl, hAccepts⟩
    exact ⟨level, after, rfl, hAccepts, hAfter⟩
  · intro hLevel
    rcases hLevel with ⟨level, after, rfl, hAccepts, hAfter⟩
    have hBlock : step.Covers [level] :=
      (Step.covers_iff_of_single hSingle).mpr
        ⟨level, rfl, hAccepts⟩
    exact ⟨[level], after, hBlock, hAfter, rfl⟩

end Pattern

end HierPath

------------------------------------------------------------
-- Levels That Are Needed
------------------------------------------------------------

namespace HierPath

namespace Pattern

/- The number of steps that stand for one level. -/
def singles
    (steps : List Step) : Nat :=
  steps.countP fun step => !step.isRecursive

/- A step in front counts, unless it is recursive. -/
theorem singles_cons
    (step : Step)
    (rest : List Step) :
    singles (step :: rest) =
      (if step.isRecursive then 0 else 1) + singles rest := by
  unfold singles
  rw [List.countP_cons]
  cases step.isRecursive with
  | true => simp
  | false => simp [Nat.add_comm]

/- Levels that fit are no fewer than single-level steps. -/
theorem singles_le_of_fits
    {steps : List Step}
    {levels : List String}
    (hFits : Fits steps levels) :
    singles steps ≤ levels.length := by
  induction steps generalizing levels with
  | nil =>
      simp [singles]
  | cons step rest ih =>
      cases hStep : step.isRecursive with
      | true =>
          rcases (fits_recursive hStep).mp hFits with
            ⟨n, _, hRest⟩
          have hBound := ih hRest
          rw [List.length_drop] at hBound
          simp only [singles_cons, hStep, if_true]
          omega
      | false =>
          rcases (fits_single hStep).mp hFits with
            ⟨level, after, rfl, _, hRest⟩
          have hBound := ih hRest
          simp only [singles_cons, hStep, Bool.false_eq_true,
            if_false, List.length_cons]
          omega

/- The first of the kept bounds counts all steps. -/
private theorem head?_needsOf
    (steps : List Step) :
    (needsOf steps).head? = some (singles steps) := by
  induction steps with
  | nil =>
      rfl
  | cons step rest ih =>
      rw [needsOf, ih, singles_cons]
      rfl

/- The bound at a position counts the steps from there on. -/
theorem getElem?_needsOf
    {steps : List Step}
    {op : Nat}
    (hOp : op ≤ steps.length) :
    (needsOf steps)[op]? =
      some (singles (steps.drop op)) := by
  induction op generalizing steps with
  | zero =>
      rw [← List.head?_eq_getElem?, head?_needsOf,
        List.drop_zero]
  | succ op ih =>
      cases steps with
      | nil =>
          simp at hOp
      | cons step rest =>
          exact ih (Nat.le_of_succ_le_succ hOp)

/- A compiled pattern keeps its path, steps and bounds. -/
theorem of_compile
    {source : Path}
    {pattern : Pattern}
    (hCompile : compile source = .ok pattern) :
    pattern.source = source
      ∧ source.segments.mapM Step.ofSegment =
        .ok pattern.steps
      ∧ pattern.needs = (needsOf pattern.steps).toArray := by
  unfold compile at hCompile
  cases hSteps : source.segments.mapM Step.ofSegment with
  | error cause =>
      rw [hSteps] at hCompile
      cases hCompile
  | ok steps =>
      rw [hSteps] at hCompile
      cases hCompile
      exact ⟨rfl, rfl, rfl⟩

/- The steps are those of the segments, one for each. -/
abbrev StepsOf
    (names : List String)
    (steps : List Step) : Prop :=
  List.Forall₂
    (fun name step => Step.ofSegment name = .ok step)
    names steps

/- The steps of a compiled pattern are those of segments. -/
theorem steps_of_compile
    {source : Path}
    {pattern : Pattern}
    (hCompile : compile source = .ok pattern) :
    StepsOf source.segments pattern.steps := by
  unfold StepsOf
  have hSteps := (of_compile hCompile).2.1
  generalize source.segments = names at hSteps ⊢
  generalize pattern.steps = steps at hSteps ⊢
  induction names generalizing steps with
  | nil =>
      cases hSteps
      exact .nil
  | cons name rest ih =>
      rw [List.mapM_cons] at hSteps
      cases hName : Step.ofSegment name with
      | error cause =>
          rw [hName] at hSteps
          cases hSteps
      | ok step =>
          cases hRest : rest.mapM Step.ofSegment with
          | error cause =>
              rw [hName, hRest] at hSteps
              cases hSteps
          | ok others =>
              rw [hName, hRest] at hSteps
              cases hSteps
              exact .cons hName (ih others hRest)

/- A compiled pattern knows the levels that tails need. -/
theorem needs_of_compile
    {source : Path}
    {pattern : Pattern}
    (hCompile : compile source = .ok pattern)
    {op : Nat}
    (hOp : op ≤ pattern.steps.length) :
    pattern.needs[op]? =
      some (singles (pattern.steps.drop op)) := by
  rcases of_compile hCompile with ⟨_, _, hNeeds⟩
  rw [hNeeds, List.getElem?_toArray, getElem?_needsOf hOp]

/- The least number of levels counts all single-level steps. -/
theorem minLevels_of_compile
    {source : Path}
    {pattern : Pattern}
    (hCompile : compile source = .ok pattern) :
    pattern.minLevels = singles pattern.steps := by
  unfold minLevels need
  rw [needs_of_compile hCompile (Nat.zero_le _)]
  rfl

end Pattern

end HierPath
