import HierPath.Tree.Select
import HierPath.Proofs.Pattern.Blocks
import HierPath.Proofs.Tree.Locations

/-
  Selecting the entries of a node, and matching their paths.

  A selection looks at what the entries of a node have after
  the segments of the node. These are as many as the top of
  the tree has, and one for each name that leads to the
  node. From there on, a selection agrees with matching the
  bare levels, with matching paths where the anchors agree,
  and with selecting from a list of paths.

  The anchor that a pattern is compiled with is kept for
  matching paths only, and no selection from a tree looks
  at it.

  Key theorems include:
    * `Pattern.compile_with_anchor`
    * `Tree.Located.depth_eq`
    * `Tree.select_eq_filter_isMatchFrom`
    * `Tree.run_select_agrees`
-/

------------------------------------------------------------
-- Patterns With Other Anchors
------------------------------------------------------------

namespace HierPath

namespace Pattern

/-
  What compiles with one anchor compiles with any other, to
  the same steps.
-/
theorem compile_with_anchor
    {source : Path}
    {pattern : Pattern}
    (hCompile : compile source = .ok pattern)
    (anchor : Anchor) :
    compile ⟨anchor, source.segments⟩ =
      .ok { pattern with
        source := ⟨anchor, source.segments⟩ } := by
  rcases of_compile hCompile with ⟨_, hSteps, hNeeds⟩
  unfold compile
  rw [hSteps, hNeeds]
  rfl

/- Matching bare levels does not look at the source. -/
theorem isMatchLevels_with_source
    (pattern : Pattern)
    (source : Path)
    (levels : List String) :
    { pattern with source := source }.isMatchLevels
        levels =
      pattern.isMatchLevels levels :=
  rfl

/-
  Where the anchors agree and the path is long enough,
  matching a path is matching the levels that it has from
  the start on.
-/
theorem isMatchFrom_eq_isMatchLevels
    {pattern : Pattern}
    {candidate : Path}
    {start : Nat}
    (hAnchor : candidate.anchor = pattern.source.anchor)
    (hStart : start ≤ candidate.depth) :
    pattern.isMatchFrom candidate start =
      pattern.isMatchLevels
        (candidate.segments.drop start) := by
  simp [isMatchFrom, hAnchor, hStart]

end Pattern

end HierPath

------------------------------------------------------------
-- Selections
------------------------------------------------------------

namespace HierPath

universe u

namespace Tree

variable {V : Type u}
variable {tree node : Tree V}

/-
  A node is as deep as its root and the names from there.
-/
theorem Located.depth_eq
    {root : Path}
    {names : List String}
    (hNode : node.Located root names) :
    node.path.depth = root.depth + names.length := by
  rw [hNode.path_eq_join root.anchor]
  exact List.length_append

/- The entries of a node have its anchor. -/
private theorem anchor_of_mem_entries
    (hNode : node.WellFormed)
    {entry : Path × V}
    (hEntry : entry ∈ node.entries) :
    entry.1.anchor = node.path.anchor := by
  rcases (hNode.mem_entries_iff entry.1 entry.2).mp hEntry
    with ⟨names, _, hKey⟩
  rw [hKey]

/-
  A selection by a pattern that has the anchor of the node
  matches the paths of the entries from the depth of the
  node on.
-/
theorem select_eq_filter_isMatchFrom
    (hNode : node.WellFormed)
    {pattern : Pattern}
    (hAnchor :
      node.path.anchor = pattern.source.anchor) :
    node.select pattern =
      node.entries.filter fun entry =>
        pattern.isMatchFrom entry.1 node.path.depth := by
  unfold select
  apply List.filter_congr
  intro entry hEntry
  have hAnchors :
      entry.1.anchor = pattern.source.anchor := by
    rw [anchor_of_mem_entries hNode hEntry, hAnchor]
  have hLong := (hNode.walked_names hEntry).1
  exact (Pattern.isMatchFrom_eq_isMatchLevels hAnchors
    hLong).symm

/-
  At a top without segments, a selection by a pattern that
  has its anchor selects the paths of the tree.
-/
theorem map_select_eq_select_paths
    (hTree : tree.WellFormed)
    (hTop : tree.path.segments = [])
    {pattern : Pattern}
    (hAnchor :
      tree.path.anchor = pattern.source.anchor) :
    (tree.select pattern).map Prod.fst =
      pattern.select tree.paths := by
  have hDepth : tree.path.depth = 0 := by
    rw [Path.depth, hTop, List.length_nil]
  rw [select_eq_filter_isMatchFrom hTree hAnchor, hDepth,
    Pattern.select, paths, List.filter_map]
  rfl

/-
  After every run of changes, a selection at a node keeps
  the entries of the walk from the node whose levels below
  the node match, whatever anchor the pattern is compiled
  with. With the anchor of the top these are the entries
  whose paths match from the depth of the node on, and at a
  top without segments they are selected from the paths.
-/
theorem run_select_agrees
    {source : Path}
    {pattern : Pattern}
    (hCompile : Pattern.compile source = .ok pattern)
    (root : Path)
    (edits : List (Edit V)) :
    let tree := (ofRoot root).run edits
    (∀ names node,
      tree.descend? names = some node →
        let offset := root.depth + names.length
        (node.select pattern =
            node.walk.toList.filter fun entry =>
              pattern.isMatchLevels
                (entry.1.segments.drop offset))
          ∧ (∀ anchor, ∃ other,
            Pattern.compile ⟨anchor, source.segments⟩ =
                .ok other
              ∧ node.select other = node.select pattern)
          ∧ (source.anchor = root.anchor →
            node.select pattern =
              node.walk.toList.filter fun entry =>
                pattern.isMatchFrom entry.1 offset))
      ∧ (root.segments = [] →
        source.anchor = root.anchor →
          (tree.select pattern).map Prod.fst =
            pattern.select tree.paths) := by
  intro tree
  have hTree : tree.WellFormed := wellFormed_run root edits
  have hRoot : tree.path = root := path_run root edits
  have hSource : pattern.source = source :=
    (Pattern.of_compile hCompile).1
  constructor
  · intro names node hNode offset
    have hLocated : node.Located root names := by
      rw [← hRoot]
      exact hTree.located hNode
    have hDepth : node.path.depth = offset :=
      hLocated.depth_eq
    rw [toList_walk, ← hDepth]
    refine ⟨rfl, ?_, ?_⟩
    · intro anchor
      refine ⟨_, Pattern.compile_with_anchor hCompile anchor,
        ?_⟩
      simp only [select, Pattern.isMatchLevels_with_source]
    · intro hAnchor
      apply select_eq_filter_isMatchFrom
        (hTree.of_descend? hNode)
      rw [hLocated.same_anchor, hSource, hAnchor]
  · intro hTop hAnchor
    apply map_select_eq_select_paths hTree
    · rw [hRoot, hTop]
    · rw [hRoot, hSource, hAnchor]

/-
  Below a relative top, a pattern selects by what comes
  after the names of the node, and its other anchor changes
  nothing.
-/
theorem run_select_agrees_of_subtree :
    let root : Path := ⟨.relative, ["r"]⟩
    let edits : List (Edit Nat) :=
      [.add ⟨.relative, ["a", "x"]⟩ 1,
        .add ⟨.absolute, ["a", "b", "x"]⟩ 2,
        .add ⟨.absolute, ["x"]⟩ 3,
        .add ⟨.absolute, ["a"]⟩ 4]
    ∃ pattern other node,
      Pattern.compile ⟨.relative, ["**", "x"]⟩ = .ok pattern
        ∧ Pattern.compile ⟨.absolute, ["**", "x"]⟩ =
          .ok other
        ∧ ((ofRoot root).run edits).descend? ["a"] =
          some node
        ∧ node.select other = node.select pattern
        ∧ node.select pattern =
          [(⟨.relative, ["r", "a", "b", "x"]⟩, 2),
            (⟨.relative, ["r", "a", "x"]⟩, 1)] := by
  intro root edits
  have hCompile :
      Pattern.compile ⟨.relative, ["**", "x"]⟩ =
        .ok ⟨⟨.relative, ["**", "x"]⟩,
          [.recursive, .literal "x"], #[1, 1, 0]⟩ := by
    decide
  rcases (run_select_agrees hCompile root edits).1 ["a"] _
      rfl with
    ⟨_, hAnchors, hPaths⟩
  rcases hAnchors .absolute with ⟨other, hOther, hSame⟩
  refine ⟨_, other, _, hCompile, hOther, rfl, hSame, ?_⟩
  rw [hPaths rfl]
  decide +kernel

end Tree

end HierPath
