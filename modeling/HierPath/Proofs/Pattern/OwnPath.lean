import HierPath.Proofs.Path.Constructible
import HierPath.Proofs.Pattern.Concatenation
import HierPath.Proofs.Pattern.Wildcards

/-
  A pattern and the path that it was compiled from.

  Every segment is a level that its own step stands for, so
  a pattern matches its own path. Without a star there is
  nothing else for it to match.

  A star gives room for another path. A recursive step may
  take no level at all, and a glob accepts its segment with
  one star written twice, which is a name again. Either of
  them leaves the rest of the path as it is.

  Key theorems include:
    * `Step.covers_self`
    * `Pattern.fits_cons_self`
    * `Pattern.fits_self`
    * `Pattern.isMatch_iff`
    * `Pattern.isMatch_self`
    * `Step.exists_other_block`
    * `Pattern.isLiteral_iff_starless`
    * `Pattern.starless_iff_matches_only_self`
-/

------------------------------------------------------------
-- Own Levels
------------------------------------------------------------

namespace HierPath

namespace Step

/- A step can stand for the segment that it comes from. -/
theorem covers_self
    {segment : String}
    {step : Step}
    (hStep : ofSegment segment = .ok step) :
    step.Covers [segment] := by
  intro hSingle
  have hNotRecursive : segment ≠ "**" := by
    rw [Ne, ← isRecursive_iff hStep, hSingle]
    exact Bool.false_ne_true
  exact ⟨segment, rfl, accepts_self hStep hNotRecursive⟩

end Step

namespace Pattern

variable {names : List String}
variable {steps : List Step}

/- A segment in front fits its own step in front. -/
theorem fits_cons_self
    {name : String}
    {step : Step}
    (hName : Step.ofSegment name = .ok step)
    {levels : List String}
    (hFits : Fits steps levels) :
    Fits (step :: steps) (name :: levels) :=
  fits_cons.mpr
    ⟨[name], levels, Step.covers_self hName, hFits, rfl⟩

/- Segments fit the steps that come from them. -/
theorem fits_self
    (hSteps : StepsOf names steps) :
    Fits steps names := by
  induction hSteps with
  | nil => exact fits_nil.mpr rfl
  | cons hName _ ih => exact fits_cons_self hName ih

variable {source : Path}
variable {pattern : Pattern}

/- A path matches by its anchor and by levels that fit. -/
theorem isMatch_iff
    (hCompile : compile source = .ok pattern)
    (candidate : Path) :
    pattern.isMatch candidate = true ↔
      candidate.anchor = source.anchor
        ∧ Fits pattern.steps candidate.segments := by
  rw [isMatch, isMatchFrom_iff hCompile,
    isMatchLevels_iff_fits hCompile, List.drop_zero]
  simp

/- A pattern matches the path that it was compiled from. -/
theorem isMatch_self
    (hCompile : compile source = .ok pattern) :
    pattern.isMatch source = true :=
  (isMatch_iff hCompile source).mpr
    ⟨rfl, fits_self (steps_of_compile hCompile)⟩

end Pattern

end HierPath

------------------------------------------------------------
-- Other Levels
------------------------------------------------------------

namespace HierPath

namespace Segment

/- A text with a character other than a dot is a name. -/
theorem isName_of_mem
    {name : String}
    {c : Char}
    (hChar : c ∈ name.toList)
    (hOther : c ≠ '.') :
    isName name = true := by
  refine isName_iff.mpr ⟨?_, ?_, ?_⟩
  · rintro rfl
    simp at hChar
  · rintro rfl
    simp [hOther] at hChar
  · rintro rfl
    simp [hOther] at hChar

end Segment

namespace Glob

/-
  The runs around the stars of a text are filled by a longer
  text, in which the first star is written twice.
-/
private theorem CutsAtStars.exists_longer_fills
    {chars : List Char}
    {runs : List (List Char)}
    (hRuns : CutsAtStars chars runs)
    (hStar : '*' ∈ chars) :
    ∃ longer, longer.length = chars.length + 1
      ∧ '*' ∈ longer ∧ Fills runs longer := by
  rcases hRuns with ⟨hStarless, rfl⟩
  match runs with
  | [] =>
      simp at hStar
  | [run] =>
      rw [List.intercalate_singleton] at hStar
      exact absurd hStar (hStarless run (by simp))
  | run :: next :: runs =>
      let after := ['*'].intercalate (next :: runs)
      have hAfter : Fills (next :: runs) after :=
        fills_intercalate (by simp)
      refine ⟨run ++ (['*', '*'] ++ after), ?_, by simp, ?_⟩
      · rw [List.intercalate_cons_cons]
        simp only [List.length_append, List.length_cons,
          List.length_nil, after]
        omega
      · exact fills_cons.mpr ⟨['*', '*'] ++ after, after, rfl,
          List.suffix_append _ _, hAfter⟩

end Glob

namespace Step

variable {segment : String}
variable {step : Step}

/- A glob accepts a name other than its own segment. -/
private theorem exists_other_accepted
    (hStep : ofSegment segment = .ok step)
    (hSingle : segment ≠ "**")
    (hStar : '*' ∈ segment.toList) :
    ∃ other, other ≠ segment
      ∧ Segment.isName other = true
      ∧ step.accepts other = true := by
  rcases ofSegment_cases hStep with
    ⟨hRecursive, _⟩ | ⟨_, _, rfl⟩ | ⟨hStarless, _⟩
  · exact absurd hRecursive hSingle
  · rcases (Glob.cutsAtStars_runsOf
        segment.toList).exists_longer_fills hStar with
      ⟨longer, hLonger, hStarred, hFills⟩
    refine ⟨String.ofList longer, ?_, ?_, ?_⟩
    · rintro rfl
      simp at hLonger
    · exact Segment.isName_of_mem (c := '*')
        (by simpa using hStarred) (by decide)
    · rw [accepts, Glob.accepts_iff_fills,
        String.toList_ofList]
      exact hFills
  · exact absurd hStar hStarless

/-
  The step of a segment with a star can stand for a block of
  names other than the segment.
-/
theorem exists_other_block
    (hStep : ofSegment segment = .ok step)
    (hStar : '*' ∈ segment.toList) :
    ∃ block : List String, block ≠ [segment]
      ∧ (∀ level ∈ block, Segment.isName level = true)
      ∧ step.Covers block := by
  by_cases hSegment : segment = "**"
  · have hRecursive : step.isRecursive = true :=
      (isRecursive_iff hStep).mpr hSegment
    exact ⟨[], by simp, by simp,
      covers_of_isRecursive hRecursive []⟩
  · rcases exists_other_accepted hStep hSegment hStar with
      ⟨other, hOther, hName, hAccepts⟩
    exact ⟨[other], by simpa using hOther, by simpa using hName,
      fun _ => ⟨other, rfl, hAccepts⟩⟩

end Step

namespace Pattern

/- Where a segment has a star, other names fit the steps. -/
theorem exists_other_fits
    {names : List String}
    {steps : List Step}
    (hSteps : StepsOf names steps)
    (hNames : ∀ name ∈ names, Segment.isName name = true)
    (hStar : ∃ name ∈ names, '*' ∈ name.toList) :
    ∃ levels, levels ≠ names
      ∧ (∀ level ∈ levels, Segment.isName level = true)
      ∧ Fits steps levels := by
  induction hSteps with
  | nil =>
      simp at hStar
  | @cons name step names steps hName hRest ih =>
      simp only [List.mem_cons, forall_eq_or_imp] at hNames
      by_cases hHere : '*' ∈ name.toList
      · rcases Step.exists_other_block hName hHere with
          ⟨block, hOther, hBlock, hCovers⟩
        refine ⟨block ++ names, ?_, ?_, ?_⟩
        · intro hSame
          rw [← List.singleton_append] at hSame
          exact hOther (List.append_cancel_right hSame)
        · intro level hLevel
          rcases List.mem_append.mp hLevel with hNew | hOld
          · exact hBlock level hNew
          · exact hNames.2 level hOld
        · exact fits_cons.mpr
            ⟨block, names, hCovers, fits_self hRest, rfl⟩
      · have hLater : ∃ other ∈ names, '*' ∈ other.toList := by
          simpa [hHere] using hStar
        rcases ih hNames.2 hLater with
          ⟨levels, hOther, hLevels, hFits⟩
        refine ⟨name :: levels, by simpa using hOther, ?_, ?_⟩
        · simpa using ⟨hNames.1, hLevels⟩
        · exact fits_cons_self hName hFits

end Pattern

end HierPath

------------------------------------------------------------
-- Literal Patterns
------------------------------------------------------------

namespace HierPath

namespace Pattern

variable {source : Path}
variable {pattern : Pattern}

/- The literal patterns are those of paths without stars. -/
theorem isLiteral_iff_starless
    (hCompile : compile source = .ok pattern) :
    pattern.isLiteral = true ↔ source.Starless := by
  have hSteps := steps_of_compile hCompile
  unfold isLiteral Path.Starless
  generalize source.segments = names at hSteps ⊢
  generalize pattern.steps = steps at hSteps ⊢
  induction hSteps with
  | nil =>
      simp
  | cons hName _ ih =>
      simp only [List.all_cons, Bool.and_eq_true,
        Step.isLiteral_iff hName, ih, List.forall_mem_cons]

/-
  A path without stars is the only path that its pattern
  matches, and no other path has this from its pattern.
-/
theorem starless_iff_matches_only_self
    (hSource : source.Constructible)
    (hCompile : compile source = .ok pattern) :
    source.Starless ↔
      ∀ candidate : Path, candidate.Constructible →
        (pattern.isMatch candidate = true ↔
          candidate = source) := by
  constructor
  · intro hStarless candidate _
    rw [isMatch_iff hCompile,
      ← isMatchLevels_iff_fits hCompile,
      isMatchLevels_of_starless hStarless hCompile]
    rcases candidate with ⟨anchor, levels⟩
    rcases source with ⟨other, names⟩
    simp
  · intro hOnly name hName hStar
    rcases exists_other_fits (steps_of_compile hCompile)
        hSource.named ⟨name, hName, hStar⟩ with
      ⟨levels, hOther, hNames, hFits⟩
    have hLevels : Path.Named ⟨source.anchor, levels⟩ :=
      hNames
    have hSame :=
      (hOnly _ hLevels.constructible).mp
        ((isMatch_iff hCompile _).mpr ⟨rfl, hFits⟩)
    exact hOther (congrArg Path.segments hSame)

end Pattern

end HierPath
