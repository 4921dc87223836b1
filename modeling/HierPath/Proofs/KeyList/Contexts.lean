import HierPath.Proofs.KeyList.Narrowing
import HierPath.Proofs.Path.Joining
import HierPath.Proofs.Pattern.Concatenation
import HierPath.Proofs.Pattern.Starless

/-
  Relative patterns and the context that they are read in.

  A relative pattern is compiled together with the context
  in front of it, so stars in the context are wildcards as
  well. A key is selected when its upper part matches the
  context as a pattern and the rest matches the pattern on
  its own.

  A context without stars matches itself only, and then all
  selected keys lie below it. A context with a star can let
  keys in that lie elsewhere.

  Key theorems include:
    * `KeyList.compile_eq_ok_iff`
    * `KeyList.compile_eq_ok_iff_join`
    * `KeyList.select_below_context`
    * `KeyList.selects_outside_starred_context`
-/

------------------------------------------------------------
-- Patterns Below A Context
------------------------------------------------------------

namespace HierPath

namespace KeyList

/- A pattern is compiled from the path that it reads as. -/
theorem compile_eq_ok_iff
    (context : Option Path)
    (raw : String)
    (pattern : Pattern) :
    compile context raw = .ok pattern ↔
      ∃ source, Path.parseIn context raw = .ok source
        ∧ Pattern.compile source = .ok pattern := by
  unfold compile
  cases Path.parseIn context raw with
  | error cause =>
      simp [Except.mapError, bind, Except.bind]
  | ok source =>
      cases hCompile : Pattern.compile source <;>
        simp [Except.mapError, bind, Except.bind, hCompile]

/-
  A text that is a relative path on its own is compiled with
  the context in front of it.
-/
theorem compile_eq_ok_iff_join
    {context source : Path}
    {raw : String}
    (hRelative : Path.isRooted raw = false)
    (hSource : Path.parse raw = .ok source)
    (pattern : Pattern) :
    compile (some context) raw = .ok pattern ↔
      Pattern.compile (context.join source) =
        .ok pattern := by
  have hRaw : raw ≠ "" := by
    rintro rfl
    cases hSource
  have hChild :
      Path.parseIn (some context) raw =
        .ok (context.join source) :=
    Path.child_eq_join hRaw hRelative hSource context
  rw [compile_eq_ok_iff, hChild]
  simp

/-
  A relative pattern selects the keys that can be cut in two
  so that the context, as a pattern, matches the upper part
  and the pattern matches the rest. Where the context has no
  stars, these are the keys below it whose rest matches.
-/
theorem select_below_context
    {context source : Path}
    {raw content : String}
    (hRelative : Path.isRooted raw = false)
    (hSource : Path.parse raw = .ok source)
    {pattern : Pattern}
    (hCompile : compile (some context) raw = .ok pattern)
    {tree : Tree Nat}
    (hLoad :
      (load (some context) content).outcome = .ok tree) :
    ∃ above below hits,
      Pattern.compile context = .ok above
        ∧ Pattern.compile source = .ok below
        ∧ select tree pattern none = .ok hits
        ∧ (∀ entry, entry ∈ hits ↔
          entry ∈ tree.entries
            ∧ ∃ n ≤ entry.1.depth,
              above.isMatchLevels
                  (entry.1.segments.take n) = true
                ∧ below.isMatchLevels
                    (entry.1.segments.drop n) = true)
        ∧ (context.Starless →
          ∀ entry, entry ∈ hits ↔
            entry ∈ tree.entries
              ∧ context.segments <+: entry.1.segments
              ∧ below.isMatchLevels
                  (entry.1.segments.drop context.depth) =
                true) := by
  have hJoined :=
    (compile_eq_ok_iff_join hRelative hSource pattern).mp
      hCompile
  rcases Pattern.compile_join_eq_ok_iff.mp hJoined with
    ⟨above, below, hAbove, hBelow, _⟩
  have hHits :
      ∀ entry, entry ∈ tree.select pattern ↔
        entry ∈ tree.entries
          ∧ ∃ n ≤ entry.1.depth,
            above.isMatchLevels
                (entry.1.segments.take n) = true
              ∧ below.isMatchLevels
                  (entry.1.segments.drop n) = true := by
    intro entry
    rw [select_eq_filter hLoad, List.mem_filter,
      Pattern.isMatchLevels_join hAbove hBelow hJoined]
    rfl
  refine ⟨above, below, tree.select pattern, hAbove, hBelow,
    rfl, hHits, ?_⟩
  intro hStarless entry
  rw [hHits]
  simp only [Pattern.isMatchLevels_of_starless hStarless
    hAbove]
  refine and_congr_right fun _ => ?_
  constructor
  · intro hCut
    rcases hCut with ⟨n, hDepth, hTop, hRest⟩
    have hCount : n = context.depth := by
      rw [Path.depth, ← hTop, List.length_take]
      exact (Nat.min_eq_left hDepth).symm
    rw [← hCount, ← hTop]
    exact ⟨List.take_prefix n _, hRest⟩
  · intro hBelow
    rcases hBelow with ⟨hPrefix, hRest⟩
    exact ⟨context.depth, hPrefix.length_le,
      (List.prefix_iff_eq_take.mp hPrefix).symm, hRest⟩

/-
  Of two keys that end alike, the one below a context
  without stars is selected.
-/
theorem select_below_context_of_other_area :
    ∃ pattern tree hits,
      compile (some ⟨.absolute, ["app"]⟩) "**/f*" =
          .ok pattern
        ∧ (load (some ⟨.absolute, ["app"]⟩)
          "ui/font\n/lib/ui/font").outcome = .ok tree
        ∧ select tree pattern none = .ok hits
        ∧ (⟨.absolute, ["app", "ui", "font"]⟩, 1) ∈ hits
        ∧ (⟨.absolute, ["lib", "ui", "font"]⟩, 2) ∉
          hits := by
  have hSource :
      Path.parse "**/f*" = .ok ⟨.relative, ["**", "f*"]⟩ := by
    decide +kernel
  have hCompile :
      compile (some ⟨.absolute, ["app"]⟩) "**/f*" =
        .ok ⟨⟨.absolute, ["app", "**", "f*"]⟩,
          [.literal "app", .recursive,
            .glob ⟨[['f'], []]⟩], #[2, 1, 1, 0]⟩ := by
    decide +kernel
  have hLoad :
      (load (some ⟨.absolute, ["app"]⟩)
          "ui/font\n/lib/ui/font").outcome =
        .ok (Tree.ofList
          [(⟨.absolute, ["app", "ui", "font"]⟩, 1),
            (⟨.absolute, ["lib", "ui", "font"]⟩, 2)]) :=
    rfl
  have hAlone :
      Pattern.compile ⟨.relative, ["**", "f*"]⟩ =
        .ok ⟨⟨.relative, ["**", "f*"]⟩,
          [.recursive, .glob ⟨[['f'], []]⟩],
          #[1, 1, 0]⟩ := by
    decide
  have hStarless :
      Path.Starless ⟨.absolute, ["app"]⟩ := by
    simp [Path.Starless]
  rcases select_below_context (by decide) hSource hCompile
      hLoad with
    ⟨_, below, hits, _, hBelow, hHits, _, hPlain⟩
  cases hAlone.symm.trans hBelow
  refine ⟨_, _, hits, hCompile, hLoad, hHits, ?_, ?_⟩
  · rw [hPlain hStarless]
    decide +kernel
  · rw [hPlain hStarless]
    decide +kernel

/-
  A star in the context lets a key in that lies outside of
  it.
-/
theorem selects_outside_starred_context :
    ∃ pattern tree,
      Path.parse "/a*" = .ok ⟨.absolute, ["a*"]⟩
        ∧ Path.parse "x" = .ok ⟨.relative, ["x"]⟩
        ∧ compile (some ⟨.absolute, ["a*"]⟩) "x" =
          .ok pattern
        ∧ (load (some ⟨.absolute, ["a*"]⟩)
          "/ab/x\n").outcome = .ok tree
        ∧ select tree pattern none =
          .ok [(⟨.absolute, ["ab", "x"]⟩, 1)]
        ∧ ¬ ["a*"] <+: ["ab", "x"] := by
  have hCompile :
      compile (some ⟨.absolute, ["a*"]⟩) "x" =
        .ok ⟨⟨.absolute, ["a*", "x"]⟩,
          [.glob ⟨[['a'], []]⟩, .literal "x"],
          #[2, 1, 0]⟩ := by
    decide +kernel
  have hLoad :
      (load (some ⟨.absolute, ["a*"]⟩)
          "/ab/x\n").outcome =
        .ok (Tree.ofList
          [(⟨.absolute, ["ab", "x"]⟩, 1)]) :=
    rfl
  refine ⟨_, _, by decide +kernel, by decide +kernel,
    hCompile, hLoad, ?_, by decide⟩
  decide +kernel

end KeyList

end HierPath
