import HierPath.Proofs.Tree.Nodes

/-
  The entries of a well-formed tree.

  The entries are the nodes with a value. So they are the
  values that names lead to, each with the path of the top
  and its names below it, and they come in the order of
  their paths. No path comes twice, and the entries of a
  subtree stand side by side in those of the tree.

  Key theorems include:
    * `Tree.entries_eq`
    * `Tree.entries_eq_filterMap`
    * `Tree.WellFormed.mem_entries_iff`
    * `Tree.WellFormed.pairwise_entries`
    * `Tree.WellFormed.entries_infix`
    * `Tree.WellFormed.entries_eq_filter`
    * `Tree.WellFormed.mem_paths_iff`
-/

------------------------------------------------------------
-- Entries
------------------------------------------------------------

namespace HierPath

universe u

namespace Tree

variable {V : Type u}

/- The entries of named trees are those of each tree. -/
private theorem entriesAll_eq
    (named : List (String × Tree V)) :
    entriesAll named =
      (named.map Prod.snd).flatMap entries := by
  induction named with
  | nil =>
      rfl
  | cons entry rest ih =>
      rw [entriesAll, ih, List.map_cons, List.flatMap_cons]

/- A tree has the entry of its top and of its branches. -/
theorem entries_eq
    (tree : Tree V) :
    tree.entries =
      (tree.item.map fun value => (tree.path, value)).toList
        ++ tree.branches.flatMap entries := by
  cases tree with
  | node path item named =>
      rw [entries, entriesAll_eq]
      rfl

/- The entries are the nodes with a value, in order. -/
theorem entries_eq_filterMap
    (tree : Tree V) :
    tree.entries =
      tree.nodes.filterMap fun node =>
        node.item.map fun value => (node.path, value) := by
  induction tree using induction_on_branches with
  | step tree ih =>
      rw [nodes_eq, List.filterMap_cons,
        List.filterMap_flatMap, ← List.flatMap_congr ih,
        entries_eq]
      cases tree.item <;> rfl

end Tree

end HierPath

------------------------------------------------------------
-- Entries Of Well-Formed Trees
------------------------------------------------------------

namespace HierPath

universe u

namespace Tree

namespace WellFormed

variable {V : Type u}
variable {tree found : Tree V}

/-
  The entries are the values that names lead to, with the
  names put below the path of the top.
-/
theorem mem_entries_iff
    (hTree : tree.WellFormed)
    (key : Path)
    (value : V) :
    (key, value) ∈ tree.entries ↔
      ∃ names, tree.valueAt names = some value
        ∧ key =
          ⟨tree.path.anchor, tree.path.segments ++ names⟩ := by
  rw [entries_eq_filterMap, List.mem_filterMap]
  constructor
  · intro hEntry
    rcases hEntry with ⟨node, hNode, hHeld⟩
    rcases Option.map_eq_some_iff.mp hHeld with
      ⟨held, hItem, hSame⟩
    cases hSame
    rcases (hTree.mem_nodes_iff node).mp hNode with
      ⟨names, hFound⟩
    refine ⟨names, ?_, hTree.path_eq hFound⟩
    rw [valueAt, hFound]
    exact hItem
  · intro hNames
    rcases hNames with ⟨names, hValue, rfl⟩
    rcases Option.bind_eq_some_iff.mp hValue with
      ⟨node, hFound, hItem⟩
    refine ⟨node,
      (hTree.mem_nodes_iff node).mpr ⟨names, hFound⟩, ?_⟩
    rw [hItem, hTree.path_eq hFound]
    rfl

/- The paths of the entries are strictly ascending. -/
theorem pairwise_entries
    (hTree : tree.WellFormed) :
    tree.entries.Pairwise fun first second =>
      compare first.1 second.1 = .lt := by
  have hNodes := hTree.pairwise_nodes
  rw [List.pairwise_map] at hNodes
  rw [entries_eq_filterMap]
  refine hNodes.filterMap _ ?_
  intro node other hCompare first hFirst second hSecond
  rcases Option.map_eq_some_iff.mp hFirst with ⟨_, _, rfl⟩
  rcases Option.map_eq_some_iff.mp hSecond with ⟨_, _, rfl⟩
  exact hCompare

/-
  An entry comes before another exactly when its path does.
-/
theorem index_lt_iff
    (hTree : tree.WellFormed)
    {i j : Nat}
    {first second : Path × V}
    (hFirst : tree.entries[i]? = some first)
    (hSecond : tree.entries[j]? = some second) :
    i < j ↔ compare first.1 second.1 = .lt := by
  have hAscending :=
    List.pairwise_iff_getElem.mp hTree.pairwise_entries
  rcases List.getElem?_eq_some_iff.mp hFirst with
    ⟨hBound, rfl⟩
  rcases List.getElem?_eq_some_iff.mp hSecond with
    ⟨hOther, rfl⟩
  constructor
  · intro hLess
    exact hAscending i j hBound hOther hLess
  · intro hCompare
    rcases Nat.lt_trichotomy i j with
      hLess | rfl | hMore
    · exact hLess
    · simp at hCompare
    · have hTurned := hAscending j i hOther hBound hMore
      rw [Std.OrientedCmp.gt_of_lt hTurned] at hCompare
      cases hCompare

/- The entries of a subtree stand side by side. -/
theorem entries_infix
    (hTree : tree.WellFormed)
    {names : List String}
    (hFound : tree.descend? names = some found) :
    found.entries <:+: tree.entries := by
  induction names generalizing tree with
  | nil =>
      rcases eq_of_descend?_nil hFound with rfl
      exact List.infix_refl _
  | cons name rest ih =>
      rcases descend?_cons_eq_some_iff.mp hFound with
        ⟨child, hChild, hRest⟩
      rcases (wellFormed_iff tree).mp hTree with
        ⟨hTidy, hChildren⟩
      have hBranch : child ∈ tree.branches :=
        (hTidy.mem_branches_iff child).mpr ⟨name, hChild⟩
      have hChildEntries :
          child.entries <:+:
            tree.branches.flatMap entries := by
        rw [List.flatMap_def]
        apply List.infix_of_mem_flatten
        exact List.mem_map_of_mem hBranch
      have hBelow :
          found.entries <:+: child.entries :=
        ih (hChildren name child hChild) hRest
      rw [entries_eq tree]
      exact (hBelow.trans hChildEntries).trans
        (List.suffix_append _ _).isInfix

/- The entries of a subtree have its names in their paths. -/
private theorem mem_entries_of_descend?_iff
    (hTree : tree.WellFormed)
    {names : List String}
    (hFound : tree.descend? names = some found)
    (entry : Path × V) :
    entry ∈ found.entries ↔
      entry ∈ tree.entries ∧
        tree.path.segments ++ names <+: entry.1.segments := by
  rw [(hTree.of_descend? hFound).mem_entries_iff,
    hTree.mem_entries_iff, hTree.path_eq hFound]
  constructor
  · rintro ⟨rest, hValue, hKey⟩
    rw [← valueAt_append hFound] at hValue
    rw [hKey]
    exact ⟨⟨names ++ rest, hValue, by simp⟩,
      List.prefix_append _ _⟩
  · rintro ⟨⟨all, hValue, hKey⟩, hPrefix⟩
    rw [hKey, List.prefix_append_right_inj] at hPrefix
    rcases hPrefix with ⟨rest, rfl⟩
    rw [valueAt_append hFound] at hValue
    exact ⟨rest, hValue, by simp [hKey]⟩

/-
  The entries of a subtree are those of the tree that have
  its names in their paths, in the same order.
-/
theorem entries_eq_filter
    (hTree : tree.WellFormed)
    {names : List String}
    (hFound : tree.descend? names = some found) :
    found.entries =
      tree.entries.filter fun entry =>
        (tree.path.segments ++ names).isPrefixOf
          entry.1.segments := by
  have hBelow := hTree.of_descend? hFound
  apply Path.eq_of_ascending hBelow.pairwise_entries
    (hTree.pairwise_entries.filter _)
  intro entry
  rw [hTree.mem_entries_of_descend?_iff hFound,
    List.mem_filter, List.isPrefixOf_iff_prefix]

end WellFormed

end Tree

end HierPath

------------------------------------------------------------
-- Keys
------------------------------------------------------------

namespace HierPath

universe u

namespace Tree

variable {V : Type u}

/- The keys are the paths of the nodes with a value. -/
theorem paths_eq_map_filter
    (tree : Tree V) :
    tree.paths = (tree.nodes.filter hasItem).map path := by
  rw [paths, entries_eq_filterMap]
  induction tree.nodes with
  | nil =>
      rfl
  | cons node rest ih =>
      cases hItem : node.item <;>
        simp [hItem, hasItem, ih]

namespace WellFormed

variable {tree : Tree V}

/- The keys of a tree lie below its top, where values are. -/
theorem mem_paths_iff
    (hTree : tree.WellFormed)
    (key : Path) :
    key ∈ tree.paths ↔
      ∃ names, (tree.valueAt names).isSome = true
        ∧ key =
          ⟨tree.path.anchor, tree.path.segments ++ names⟩ := by
  simp only [paths, List.mem_map, Prod.exists,
    hTree.mem_entries_iff, Option.isSome_iff_exists]
  constructor
  · intro hKey
    rcases hKey with ⟨_, value, ⟨names, hValue, rfl⟩, rfl⟩
    exact ⟨names, ⟨value, hValue⟩, rfl⟩
  · intro hKey
    rcases hKey with ⟨names, ⟨value, hValue⟩, rfl⟩
    exact ⟨_, value, ⟨names, hValue, rfl⟩, rfl⟩

/- Names below the top are a key where they have a value. -/
theorem mem_paths_below_iff
    (hTree : tree.WellFormed)
    (names : List String) :
    (⟨tree.path.anchor, tree.path.segments ++ names⟩ : Path) ∈
        tree.paths ↔
      (tree.valueAt names).isSome = true := by
  rw [hTree.mem_paths_iff]
  constructor
  · intro hKey
    rcases hKey with ⟨others, hSome, hSame⟩
    rw [List.append_cancel_left
      (congrArg Path.segments hSame)]
    exact hSome
  · intro hSome
    exact ⟨names, hSome, rfl⟩

/- The keys of a tree come in strictly ascending order. -/
theorem pairwise_paths
    (hTree : tree.WellFormed) :
    tree.paths.Pairwise fun first second =>
      compare first second = .lt :=
  List.pairwise_map.mpr hTree.pairwise_entries

end WellFormed

end Tree

end HierPath
