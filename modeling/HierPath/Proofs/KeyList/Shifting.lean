import HierPath.Proofs.KeyList.Contexts
import HierPath.Proofs.Pattern.Wildcards

/-
  Moving a pattern and a path into a context together.

  The context goes in front of both. As a path it is taken
  as it is, and as a pattern each of its segments becomes a
  step, which may be a glob. A segment other than `**` is a
  step for one level that accepts the segment itself, so the
  levels of the context use up the steps of the context, one
  by one, and the rest is matched as before.

  Key theorems include:
    * `Pattern.fits_append_of_accepts`
    * `Pattern.isMatch_join`
    * `KeyList.isMatch_shifts`
-/

------------------------------------------------------------
-- Steps In Front
------------------------------------------------------------

namespace HierPath

namespace Pattern

/-
  Steps in front that stand for one level each use up levels
  that they accept.
-/
theorem fits_append_of_accepts
    {names : List String}
    {steps : List Step}
    (hOwn :
      List.Forall₂
        (fun name step =>
          step.isRecursive = false
            ∧ step.accepts name = true)
        names steps)
    (others : List Step)
    (levels : List String) :
    Fits (steps ++ others) (names ++ levels) ↔
      Fits others levels := by
  induction hOwn with
  | nil =>
      rfl
  | @cons name step names steps hFirst _ ih =>
      rcases hFirst with ⟨hSingle, hAccepts⟩
      rw [List.cons_append, List.cons_append,
        fits_single hSingle, ← ih]
      constructor
      · rintro ⟨level, after, hLevels, _, hRest⟩
        cases hLevels
        exact hRest
      · intro hRest
        exact ⟨name, _, rfl, hAccepts, hRest⟩

end Pattern

end HierPath

------------------------------------------------------------
-- Joined Paths
------------------------------------------------------------

namespace HierPath

namespace Pattern

/-
  A path without `**` that is put in front of a pattern and
  in front of a candidate of the same anchor changes nothing.
-/
theorem isMatch_join
    {p source candidate : Path}
    (hSingle : ∀ name ∈ p.segments, name ≠ "**")
    (hAnchor : candidate.anchor = source.anchor)
    {joined pattern : Pattern}
    (hJoined : compile (p.join source) = .ok joined)
    (hPattern : compile source = .ok pattern) :
    joined.isMatch (p.join candidate) =
      pattern.isMatch candidate := by
  rcases compile_join_eq_ok_iff.mp hJoined with
    ⟨front, back, hFront, hBack, hParts⟩
  cases hPattern.symm.trans hBack
  have hOwn :
      List.Forall₂
        (fun name step =>
          step.isRecursive = false
            ∧ step.accepts name = true)
        p.segments front.steps := by
    have hBoth := (List.forall₂_and_left _ _).mpr
      ⟨hSingle, steps_of_compile hFront⟩
    refine hBoth.imp fun name step hStep => ?_
    have hNotRecursive : step.isRecursive = false := by
      rw [← Bool.not_eq_true, Step.isRecursive_iff hStep.2]
      exact hStep.1
    exact ⟨hNotRecursive,
      Step.accepts_self hStep.2 hStep.1⟩
  have hLevels :
      joined.isMatchLevels
          (p.segments ++ candidate.segments) = true ↔
        pattern.isMatchLevels candidate.segments = true := by
    rw [isMatchLevels_iff_fits hJoined,
      isMatchLevels_iff_fits hPattern, hParts]
    exact fits_append_of_accepts hOwn _ _
  rw [Bool.eq_iff_iff, isMatch, isMatch,
    isMatchFrom_iff hJoined, isMatchFrom_iff hPattern]
  simp only [Path.join, List.drop_zero, Nat.zero_le,
    true_and, hAnchor, hLevels]

end Pattern

end HierPath

------------------------------------------------------------
-- Contexts
------------------------------------------------------------

namespace HierPath

namespace Path

/- A text without a separator in front reads as relative. -/
theorem anchor_of_parse
    {raw : String}
    (hPlain : isRooted raw = false)
    {p : Path}
    (hRead : parse raw = .ok p) :
    p.anchor = .relative := by
  have hRaw : raw ≠ "" := by
    rintro rfl
    cases hRead
  rw [parse, parseIn_eq_resolve none hRaw,
    resolve_eq_ok_iff] at hRead
  rw [hRead.2.1]
  simp [startOf, hPlain, relativeRoot]

end Path

namespace KeyList

/-
  A relative pattern matches a relative path exactly when it
  does so with both of them read in a context, whatever
  segments other than `**` the context has.
-/
theorem isMatch_shifts
    {context : Path}
    (hSingle : ∀ name ∈ context.segments, name ≠ "**")
    {rawPattern rawCandidate : String}
    (hPatternPlain : Path.isRooted rawPattern = false)
    (hCandidatePlain : Path.isRooted rawCandidate = false)
    {source candidate : Path}
    (hSource : Path.parse rawPattern = .ok source)
    (hCandidate : Path.parse rawCandidate = .ok candidate)
    {shifted : Pattern}
    (hShifted :
      compile (some context) rawPattern = .ok shifted) :
    ∃ pattern,
      compile none rawPattern = .ok pattern
        ∧ Path.parseIn (some context) rawCandidate =
          .ok (context.join candidate)
        ∧ shifted.isMatch (context.join candidate) =
          pattern.isMatch candidate := by
  have hJoined :=
    (compile_eq_ok_iff_join hPatternPlain hSource
      shifted).mp hShifted
  rcases Pattern.compile_join_eq_ok_iff.mp hJoined with
    ⟨_, pattern, _, hPattern, _⟩
  have hRaw : rawCandidate ≠ "" := by
    rintro rfl
    cases hCandidate
  have hAnchor : candidate.anchor = source.anchor := by
    rw [Path.anchor_of_parse hPatternPlain hSource,
      Path.anchor_of_parse hCandidatePlain hCandidate]
  refine ⟨pattern, ?_, ?_, ?_⟩
  · exact (compile_eq_ok_iff none rawPattern pattern).mpr
      ⟨source, hSource, hPattern⟩
  · exact Path.child_eq_join hRaw hCandidatePlain hCandidate
      context
  · exact Pattern.isMatch_join hSingle hAnchor hJoined
      hPattern

/-
  A context may hold globs. They match their own texts, and
  the recursive step of the pattern does not reach up into
  the context.
-/
theorem isMatch_shifts_of_starred_context :
    ∃ pattern shifted,
      compile none "**/f*" = .ok pattern
        ∧ compile (some ⟨.absolute, ["a*", "***"]⟩) "**/f*" =
          .ok shifted
        ∧ Path.parseIn (some ⟨.absolute, ["a*", "***"]⟩)
            "./ui//font" =
          .ok ⟨.absolute, ["a*", "***", "ui", "font"]⟩
        ∧ shifted.isMatch
            ⟨.absolute, ["a*", "***", "ui", "font"]⟩ =
          true
        ∧ pattern.isMatch ⟨.relative, ["ui", "font"]⟩ =
          true := by
  let shifted : Pattern :=
    ⟨⟨.absolute, ["a*", "***", "**", "f*"]⟩,
      [.glob ⟨[['a'], []]⟩, .glob ⟨[[], [], [], []]⟩,
        .recursive, .glob ⟨[['f'], []]⟩],
      #[3, 2, 1, 1, 0]⟩
  have hShifted :
      compile (some ⟨.absolute, ["a*", "***"]⟩) "**/f*" =
        .ok shifted := by
    decide +kernel
  have hSource :
      Path.parse "**/f*" =
        .ok ⟨.relative, ["**", "f*"]⟩ := by
    decide +kernel
  have hCandidate :
      Path.parse "./ui//font" =
        .ok ⟨.relative, ["ui", "font"]⟩ := by
    decide +kernel
  rcases isMatch_shifts (by decide) (by decide) (by decide)
      hSource hCandidate hShifted with
    ⟨pattern, hPattern, hRead, hMatch⟩
  have hHit :
      shifted.isMatch
        ⟨.absolute, ["a*", "***", "ui", "font"]⟩ = true := by
    decide +kernel
  refine ⟨pattern, shifted, hPattern, hShifted, hRead, hHit,
    ?_⟩
  rw [← hMatch]
  exact hHit

end KeyList

end HierPath
