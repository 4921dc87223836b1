import HierPath.Tree.Walk
import HierPath.Proofs.Tree.Entries

/-
  Counting the nodes and the values of a tree.

  Both counts are sums over the branches. A tree holds as
  many values as it has entries. In a well-formed tree no
  names come twice among the entries, so this is the number
  of lists of names that have a value.

  Key theorems include:
    * `Tree.nodeCount_eq_sum`
    * `Tree.count_eq_sum`
    * `Tree.count_eq`
    * `Tree.length_nodes`
    * `Tree.countP_nodes`
    * `Tree.WellFormed.exists_names_of_count`
-/

------------------------------------------------------------
-- Counts
------------------------------------------------------------

namespace HierPath

universe u

namespace Tree

variable {V : Type u}

/- The nodes of trees are counted tree by tree. -/
theorem totalNodes_eq_sum
    (trees : List (Tree V)) :
    totalNodes trees = (trees.map nodeCount).sum := by
  rw [totalNodes, List.sum, List.foldr_map]

/- A tree has one node more than its branches have. -/
theorem nodeCount_eq_sum
    (tree : Tree V) :
    tree.nodeCount =
      1 + (tree.branches.map nodeCount).sum := by
  rw [nodeCount_eq, totalNodes_eq_sum]

/- A tree has its own value more than its branches have. -/
theorem count_eq_sum
    (tree : Tree V) :
    tree.count =
      tree.item.toList.length
        + (tree.branches.map count).sum := by
  have hNamed (named : List (String × Tree V)) :
      countAll named =
        ((named.map Prod.snd).map count).sum := by
    induction named with
    | nil =>
        rfl
    | cons entry rest ih =>
        rw [countAll, ih]
        rfl
  cases tree with
  | node path item named =>
      rw [count, hNamed]
      cases item <;> rfl

/- A tree holds as many values as it has entries. -/
theorem count_eq
    (tree : Tree V) :
    tree.count = tree.entries.length := by
  induction tree using induction_on_branches with
  | step tree ih =>
      rw [count_eq_sum, entries_eq, List.length_append,
        List.length_flatMap, List.map_congr_left ih]
      cases tree.item <;> rfl

/- A tree lists as many nodes as it has. -/
theorem length_nodes
    (tree : Tree V) :
    tree.nodes.length = tree.nodeCount := by
  induction tree using induction_on_branches with
  | step tree ih =>
      rw [nodes_eq, nodeCount_eq_sum, List.length_cons,
        List.length_flatMap, List.map_congr_left ih,
        Nat.add_comm]

/- As many nodes have a value as the tree holds values. -/
theorem countP_nodes
    (tree : Tree V) :
    tree.nodes.countP hasItem = tree.count := by
  rw [count_eq, entries_eq_filterMap,
    List.length_filterMap_eq_countP]
  congr 1
  funext node
  rw [hasItem, Option.isSome_map]

/-
  The names with a value can be listed without repetition,
  and the count is the length of the list.
-/
theorem WellFormed.exists_names_of_count
    {tree : Tree V}
    (hTree : tree.WellFormed) :
    ∃ distinct : List (List String),
      distinct.Nodup
        ∧ (∀ names, names ∈ distinct ↔
          ∃ value, tree.valueAt names = some value)
        ∧ tree.count = distinct.length := by
  have hBelow :
      ∀ key ∈ tree.paths, ∃ names,
        key =
          ⟨tree.path.anchor, tree.path.segments ++ names⟩ := by
    intro key hKey
    rcases (hTree.mem_paths_iff key).mp hKey with
      ⟨names, _, hNames⟩
    exact ⟨names, hNames⟩
  rcases Path.exists_names_below hTree.pairwise_paths hBelow
    with ⟨distinct, hDistinct, hNames, hLength⟩
  refine ⟨distinct, hDistinct, ?_, ?_⟩
  · intro names
    rw [hNames, hTree.mem_paths_below_iff,
      Option.isSome_iff_exists]
  · rw [count_eq, hLength, paths, List.length_map]

end Tree

end HierPath
