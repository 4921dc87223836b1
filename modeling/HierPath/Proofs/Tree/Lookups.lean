import HierPath.Proofs.Pattern.OwnPath
import HierPath.Proofs.Tree.Selection

/-
  Selecting by a pattern that is a key.

  A selection goes through all entries of a node and tests
  what each has below the node. Where the pattern has no
  stars, only the entry at the pattern's own path can pass,
  so the selection is the lookup of that path.

  Key theorems include:
    * `Tree.WellFormed.select_of_starless`
    * `Tree.WellFormed.select_or_notFound`
    * `Pattern.literal_stands_for_own_path`
-/

------------------------------------------------------------
-- Lookups By Patterns
------------------------------------------------------------

namespace HierPath

universe u

namespace Tree

namespace WellFormed

variable {V : Type u}
variable {node : Tree V}
variable {source : Path}
variable {pattern : Pattern}

/-
  Without stars, a pattern selects the value that its own
  names lead to, if there is one.
-/
theorem select_of_starless
    (hNode : node.WellFormed)
    (hStarless : source.Starless)
    (hCompile : Pattern.compile source = .ok pattern) :
    node.select pattern =
      ((node.valueAt source.segments).map fun value =>
        (node.path.join source, value)).toList := by
  -- Both lists ascend, so it is enough to compare members.
  apply Path.eq_of_ascending
    (hNode.pairwise_entries.filter _)
  · cases node.valueAt source.segments <;> simp
  · intro entry
    rcases entry with ⟨key, value⟩
    rw [List.mem_filter, hNode.mem_entries_iff,
      Pattern.isMatchLevels_of_starless hStarless hCompile]
    constructor
    · rintro ⟨⟨names, hValue, rfl⟩, hOwn⟩
      simp only [Path.depth, List.drop_left] at hOwn
      subst hOwn
      simp [hValue, Path.join]
    · intro hHeld
      rcases Option.map_eq_some_iff.mp
          (Option.mem_toList.mp hHeld) with
        ⟨held, hValue, hSame⟩
      cases hSame
      refine ⟨⟨source.segments, hValue, rfl⟩, ?_⟩
      exact List.drop_left

/-
  Such a selection is a lookup: one entry with the value at
  the pattern's own path, or none where nothing is found.
-/
theorem select_or_notFound
    (hNode : node.WellFormed)
    (hStarless : source.Starless)
    (hCompile : Pattern.compile source = .ok pattern) :
    (∃ value, node.get source = .ok value
        ∧ node.select pattern =
          [(node.path.join source, value)])
      ∨ (node.get source = .error (.notFound source)
        ∧ node.select pattern = []) := by
  rw [hNode.select_of_starless hStarless hCompile, get_eq]
  cases node.valueAt source.segments with
  | none => exact Or.inr ⟨rfl, rfl⟩
  | some value => exact Or.inl ⟨value, rfl, rfl⟩

end WellFormed

end Tree

end HierPath

------------------------------------------------------------
-- Literal Patterns
------------------------------------------------------------

namespace HierPath

universe u

namespace Pattern

/-
  A pattern matches its own path. The pattern is literal
  when no segment of the path has a star, and this is when
  it matches no other path. A literal pattern selects at any
  node, after every run of changes, what a lookup of its own
  path finds there.
-/
theorem literal_stands_for_own_path
    {source : Path}
    (hSource : source.Constructible)
    {pattern : Pattern}
    (hCompile : compile source = .ok pattern) :
    pattern.isMatch source = true
      ∧ (pattern.isLiteral = true ↔ source.Starless)
      ∧ (pattern.isLiteral = true ↔
        ∀ candidate : Path, candidate.Constructible →
          (pattern.isMatch candidate = true ↔
            candidate = source))
      ∧ (pattern.isLiteral = true →
        ∀ (V : Type u) (root : Path) (edits : List (Edit V))
          (names : List String) (node : Tree V),
          ((Tree.ofRoot root).run edits).descend? names =
              some node →
            (∃ value, node.get source = .ok value
                ∧ node.select pattern =
                  [(node.path.join source, value)])
              ∨ (node.get source = .error (.notFound source)
                ∧ node.select pattern = [])) := by
  have hLiteral := isLiteral_iff_starless hCompile
  refine ⟨isMatch_self hCompile, hLiteral, ?_, ?_⟩
  · rw [hLiteral]
    exact starless_iff_matches_only_self hSource hCompile
  · intro hOnly V root edits names node hFound
    have hTree := Tree.wellFormed_run root edits
    exact (hTree.of_descend? hFound).select_or_notFound
      (hLiteral.mp hOnly) hCompile

/-
  At a node below a relative top, a literal pattern finds its
  one entry among others, and at the top it finds nothing.
-/
theorem literal_stands_for_own_path_of_subtree :
    let source : Path := ⟨.absolute, ["a", "b"]⟩
    let root : Path := ⟨.relative, ["r"]⟩
    let edits : List (Edit Nat) :=
      [.add ⟨.absolute, ["s", "a"]⟩ 1,
        .add ⟨.relative, ["s", "a", "b"]⟩ 2,
        .add ⟨.relative, ["s", "a", "bc"]⟩ 3]
    let tree := (Tree.ofRoot root).run edits
    ∃ pattern node,
      compile source = .ok pattern
        ∧ tree.descend? ["s"] = some node
        ∧ node.select pattern =
          [(⟨.relative, ["r", "s", "a", "b"]⟩, 2)]
        ∧ tree.select pattern = [] := by
  intro source root edits tree
  have hSource : source.Constructible := by
    apply Path.Named.constructible
    simp [source, Path.Named, Segment.isName]
  have hCompile :
      compile source =
        .ok ⟨source, [.literal "a", .literal "b"],
          #[2, 1, 0]⟩ := by
    decide
  have hSelect :=
    (literal_stands_for_own_path hSource hCompile).2.2.2 rfl
      Nat root edits
  refine ⟨_, _, hCompile, rfl, ?_, ?_⟩
  · rcases hSelect ["s"] _ rfl with
      ⟨value, hGet, hEntry⟩ | ⟨hMissing, _⟩
    · cases hGet
      exact hEntry
    · cases hMissing
  · rcases hSelect [] _ (Tree.descend?_nil _) with
      ⟨value, hGet, _⟩ | ⟨_, hNone⟩
    · cases hGet
    · exact hNone

end Pattern

end HierPath
