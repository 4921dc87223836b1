import HierPath.Proofs.KeyList.Loading
import HierPath.Proofs.Tree.Walking

/-
  Narrowing a selection to an area.

  Whether there is an area is found out by walking nodes,
  and whether a key lies in it by looking at the segments of
  the key. In the tree of a key list both come to the same,
  as every node below the top has a key at it or below it,
  and the top has no segments.

  So an area is missing exactly when it has segments and no
  key starts with them. Any other area keeps, of what the
  pattern selects, the entries of the node at the area. The
  pattern is matched against whole keys all the same, and
  no anchor plays a part.

  Key theorems include:
    * `Tree.WellFormed.descend?_isSome_iff_paths`
    * `KeyList.wellFormed_of_load`
    * `KeyList.select_narrows`
-/

------------------------------------------------------------
-- Nodes And Keys
------------------------------------------------------------

namespace HierPath

universe u

namespace Tree

variable {V : Type u}

/-
  Names lead to a node exactly when there are none of them
  or they stand in the path of a key.
-/
theorem WellFormed.descend?_isSome_iff_paths
    {tree : Tree V}
    (hTree : tree.WellFormed)
    (names : List String) :
    (tree.descend? names).isSome = true ↔
      names = [] ∨
        ∃ key ∈ tree.paths,
          tree.path.segments ++ names <+: key.segments := by
  rw [hTree.descend?_isSome_iff]
  refine or_congr_right ?_
  constructor
  · intro hValue
    rcases hValue with ⟨rest, hValue⟩
    have hKey :=
      (hTree.mem_paths_below_iff (names ++ rest)).mpr
        (Option.isSome_iff_exists.mpr hValue)
    refine ⟨_, hKey, ?_⟩
    rw [← List.append_assoc]
    exact List.prefix_append _ _
  · intro hKey
    rcases hKey with ⟨key, hKey, hPrefix⟩
    rcases (hTree.mem_paths_iff key).mp hKey with
      ⟨all, hSome, rfl⟩
    rw [List.prefix_append_right_inj] at hPrefix
    rcases hPrefix with ⟨rest, rfl⟩
    exact ⟨rest, Option.isSome_iff_exists.mp hSome⟩

end Tree

end HierPath

------------------------------------------------------------
-- Areas
------------------------------------------------------------

namespace HierPath

namespace KeyList

variable {context : Option Path}
variable {content : String}
variable {tree : Tree Nat}

/- The tree of a key list is well formed. -/
theorem wellFormed_of_load
    (hLoad : (load context content).outcome = .ok tree) :
    tree.WellFormed := by
  rw [eq_ofList_of_load hLoad]
  exact Tree.wellFormed_ofList _

/- Its top is the root. -/
theorem path_of_load
    (hLoad : (load context content).outcome = .ok tree) :
    tree.path = .root := by
  rw [eq_ofList_of_load hLoad]
  exact Tree.path_ofList _

/- No key of the tree starts with the segments of the area. -/
def IsMissing
    (tree : Tree Nat)
    (area : Path) : Prop :=
  area.segments ≠ []
    ∧ ∀ key ∈ tree.paths, ¬ area.segments <+: key.segments

/- An area is missing where its segments lead to no node. -/
private theorem isMissing_iff
    (hLoad : (load context content).outcome = .ok tree)
    (area : Path) :
    IsMissing tree area ↔
      tree.descend? area.segments = none := by
  have hNode :=
    (wellFormed_of_load hLoad).descend?_isSome_iff_paths
      area.segments
  rw [path_of_load hLoad] at hNode
  rw [← Option.not_isSome_iff_eq_none, hNode]
  simp [IsMissing, Path.root]

/- A selection matches the whole keys of the tree. -/
theorem select_eq_filter
    (hLoad : (load context content).outcome = .ok tree)
    (pattern : Pattern) :
    tree.select pattern =
      tree.entries.filter fun entry =>
        pattern.isMatchLevels entry.1.segments := by
  unfold Tree.select
  rw [path_of_load hLoad]
  rfl

/- The entries of an area are those with its segments. -/
private theorem entries_of_area
    (hLoad : (load context content).outcome = .ok tree)
    {area : Path}
    {found : Tree Nat}
    (hFound : tree.descend? area.segments = some found) :
    found.entries =
      tree.entries.filter fun entry =>
        area.segments.isPrefixOf entry.1.segments := by
  have hEntries :=
    (wellFormed_of_load hLoad).entries_eq_filter hFound
  rw [path_of_load hLoad] at hEntries
  exact hEntries

/- A selection narrowed to an area that leads to a node. -/
private theorem select_some_of_descend?
    {area : Path}
    {found : Tree Nat}
    (hFound : tree.descend? area.segments = some found)
    (pattern : Pattern) :
    select tree pattern (some area) =
      .ok ((tree.select pattern).filter fun entry =>
        area.segments.isPrefixOf entry.1.segments) := by
  simp only [select, Tree.subtree, hFound]
  rfl

/- A selection narrowed to an area that leads to none. -/
private theorem select_some_of_descend?_none
    {area : Path}
    (hFound : tree.descend? area.segments = none)
    (pattern : Pattern) :
    select tree pattern (some area) =
      .error (.emptyArea area (.notFound area)) := by
  simp only [select, Tree.subtree, hFound]
  rfl

/-
  Narrowed to an area, a selection fails exactly when the
  area is missing. Otherwise it keeps the entries of the
  node at the area whose whole keys match, and these are the
  entries of the whole selection that lie in the area.
-/
theorem select_narrows
    (hLoad : (load context content).outcome = .ok tree)
    (pattern : Pattern)
    (area : Path) :
    ((∃ failure,
        select tree pattern (some area) = .error failure) ↔
      IsMissing tree area)
      ∧ (∀ failure,
        select tree pattern (some area) = .error failure →
          failure = .emptyArea area (.notFound area))
      ∧ (¬ IsMissing tree area →
        ∃ found all hits,
          tree.subtree area = .ok found
            ∧ select tree pattern none = .ok all
            ∧ select tree pattern (some area) = .ok hits
            ∧ (hits =
              found.walk.toList.filter fun entry =>
                pattern.isMatchLevels entry.1.segments)
            ∧ (hits =
              all.filter fun entry =>
                area.segments.isPrefixOf
                  entry.1.segments)) := by
  rw [isMissing_iff hLoad]
  cases hFound : tree.descend? area.segments with
  | none =>
      rw [select_some_of_descend?_none hFound]
      refine ⟨by simp, ?_, by simp⟩
      intro failure hFailure
      cases hFailure
      rfl
  | some found =>
      rw [select_some_of_descend? hFound]
      refine ⟨by simp, by simp, ?_⟩
      intro _
      refine ⟨found, tree.select pattern, _,
        (tree.subtree_eq_ok_iff area found).mpr hFound, rfl,
        rfl, ?_, rfl⟩
      -- Keys are matched and narrowed in either order.
      rw [select_eq_filter hLoad, Tree.toList_walk,
        entries_of_area hLoad hFound, List.filter_filter,
        List.filter_filter]
      simp only [Bool.and_comm]

/-
  An area that is no key itself keeps the keys below it, for
  a pattern and keys of the other anchor.
-/
theorem select_narrows_of_area_above_keys :
    let tree : Tree Nat := Tree.ofList
      [(⟨.relative, ["a", "b", "x"]⟩, 1),
        (⟨.absolute, ["a", "c"]⟩, 2),
        (⟨.relative, ["b", "x"]⟩, 3)]
    let source : Path := ⟨.relative, ["**", "x"]⟩
    let pattern : Pattern :=
      ⟨source, [.recursive, .literal "x"], #[1, 1, 0]⟩
    let area : Path := ⟨.absolute, ["a"]⟩
    (load none "a/b/x\n/a/c\nb/x").outcome = .ok tree
      ∧ Pattern.compile source = .ok pattern
      ∧ ¬ IsMissing tree area
      ∧ select tree pattern (some area) =
        .ok [(⟨.absolute, ["a", "b", "x"]⟩, 1)] := by
  intro tree source pattern area
  have hLoad :
      (load none "a/b/x\n/a/c\nb/x").outcome = .ok tree :=
    rfl
  have hCompile : Pattern.compile source = .ok pattern := by
    decide
  have hArea : ¬ IsMissing tree area := by
    unfold IsMissing
    decide +kernel
  rcases (select_narrows hLoad pattern area).2.2 hArea with
    ⟨_, _, _, _, hAll, hHits, _, hNarrowed⟩
  refine ⟨hLoad, hCompile, hArea, ?_⟩
  cases hAll
  rw [hHits, hNarrowed]
  decide +kernel

end KeyList

end HierPath
