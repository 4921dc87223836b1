import HierPath.Proofs.Tree.Counting
import HierPath.Proofs.Tree.Subtrees
import Mathlib.Data.List.Infix

/-
  What a write adds to a tree.

  A write makes one node for each of the names on its way
  that lead nowhere yet, and that many nodes are counted
  more. It adds a value unless it replaces one.

  Both counts are sums over the branches, and a write below
  a node exchanges one summand.

  Key definitions include:
    * `Tree.missing`

  Key theorems include:
    * `Tree.created_write`
    * `Tree.nodeCount_write`
    * `Tree.count_write`
    * `Tree.location_write`
    * `Tree.WellFormed.exists_names_of_nodeCount`
-/

------------------------------------------------------------
-- Missing Nodes
------------------------------------------------------------

namespace HierPath

universe u

namespace Tree

variable {V : Type u}

/-
  The names above and at the given ones, the top left out,
  that lead to no node.
-/
def missing
    (tree : Tree V)
    (names : List String) : List (List String) :=
  names.inits.tail.filter fun above =>
    (tree.descend? above).isNone

/- The non-empty ones of the names above and at others. -/
theorem mem_tail_inits_iff
    (above names : List String) :
    above ∈ names.inits.tail ↔
      above ≠ [] ∧ above <+: names := by
  cases names with
  | nil =>
      simp
  | cons name rest =>
      rw [List.inits_cons, List.tail_cons, List.mem_map]
      cases above with
      | nil =>
          simp
      | cons other below =>
          simp [List.cons_prefix_cons, eq_comm, and_comm]

/- The first name is missing where there is no such child. -/
private theorem missing_cons
    (tree : Tree V)
    (name : String)
    (rest : List String) :
    tree.missing (name :: rest) =
      (if (tree.child? name).isSome then [] else [[name]])
        ++ ((tree.childFor name).missing rest).map
          (List.cons name) := by
  have hInits : rest.inits = [] :: rest.inits.tail := by
    cases rest <;> rfl
  have hBelow :
      ∀ above ∈ rest.inits.tail,
        (tree.descend? (name :: above)).isNone =
          ((tree.childFor name).descend? above).isNone := by
    intro above hAbove
    rw [descend?_childFor tree name
      ((mem_tail_inits_iff above rest).mp hAbove).1]
  rw [missing, List.inits_cons, List.tail_cons, hInits,
    List.map_cons, List.filter_cons, List.filter_map]
  simp only [Function.comp_def]
  rw [List.filter_congr hBelow, ← missing, descend?_cons]
  cases tree.child? name <;> simp

/- A write makes the child that it goes on in and others. -/
private theorem created_write_cons
    (tree : Tree V)
    (name : String)
    (rest : List String)
    (value : V) :
    (tree.write (name :: rest) value).created =
      (if (tree.child? name).isSome then 0 else 1)
        + ((tree.childFor name).write
          rest value).created := by
  cases tree
  rfl

/- A write makes the nodes that are missing on its way. -/
theorem created_write
    (tree : Tree V)
    (names : List String)
    (value : V) :
    (tree.write names value).created =
      (tree.missing names).length := by
  induction names generalizing tree with
  | nil =>
      cases tree
      rfl
  | cons name rest ih =>
      rw [created_write_cons, ih, missing_cons,
        List.length_append, List.length_map]
      cases tree.child? name <;> rfl

end Tree

end HierPath

------------------------------------------------------------
-- Counts After A Write
------------------------------------------------------------

namespace HierPath

universe u

namespace Tree

variable {V : Type u}

/- A write below a node exchanges one summand. -/
private theorem sum_branches_write_cons
    {tree : Tree V}
    (hTidy : tree.Tidy)
    (f : Tree V → Nat)
    (name : String)
    (rest : List String)
    (value : V) :
    ((tree.write (name :: rest) value).tree.branches.map
          f).sum
        + ((tree.child? name).map f).getD 0 =
      (tree.branches.map f).sum
        + f ((tree.childFor name).write rest value).tree := by
  have hInsert := Children.sum_insert f name
    ((tree.childFor name).write rest value).tree hTidy.sorted
  rw [branches, branches, List.map_map, List.map_map,
    children_write_cons]
  exact hInsert

/- As many nodes are counted more as were made. -/
theorem nodeCount_write
    {tree : Tree V}
    (hTree : tree.WellFormed)
    (names : List String)
    (value : V) :
    (tree.write names value).tree.nodeCount =
      tree.nodeCount + (tree.write names value).created := by
  induction names generalizing tree with
  | nil =>
      cases tree
      rfl
  | cons name rest ih =>
      have hTidy := ((wellFormed_iff tree).mp hTree).1
      have hBelow := ih (wellFormed_childFor hTree name)
      have hSum := sum_branches_write_cons hTidy nodeCount
        name rest value
      -- A child that is made counts for itself.
      have hChild :
          (tree.childFor name).nodeCount =
            (if (tree.child? name).isSome then 0 else 1)
              + ((tree.child? name).map nodeCount).getD 0 := by
        rw [childFor]
        cases tree.child? name with
        | none => rfl
        | some child => simp
      rw [nodeCount_eq_sum, nodeCount_eq_sum tree,
        created_write_cons]
      omega

/- A value is counted more unless one was replaced. -/
theorem count_write
    {tree : Tree V}
    (hTree : tree.WellFormed)
    (names : List String)
    (value : V) :
    (tree.write names value).tree.count
        + (tree.valueAt names).toList.length =
      tree.count + 1 := by
  induction names generalizing tree with
  | nil =>
      rw [count_eq_sum, count_eq_sum tree, item_write_nil,
        valueAt_nil, branches, children_write_nil, ← branches]
      simp only [Option.toList_some, List.length_singleton]
      omega
  | cons name rest ih =>
      have hTidy := ((wellFormed_iff tree).mp hTree).1
      have hBelow := ih (wellFormed_childFor hTree name)
      have hSum := sum_branches_write_cons hTidy count
        name rest value
      -- A child that is made holds no value yet.
      have hChild :
          (tree.childFor name).count =
            ((tree.child? name).map count).getD 0 := by
        rw [childFor]
        cases tree.child? name <;> rfl
      rw [valueAt_childFor] at hBelow
      rw [count_eq_sum, count_eq_sum tree, item_write_cons]
      omega

/- A write ends at the node below the top with its names. -/
theorem location_write
    {tree : Tree V}
    (hTree : tree.WellFormed)
    (names : List String)
    (value : V) :
    (tree.write names value).location =
      ⟨tree.path.anchor, tree.path.segments ++ names⟩ := by
  induction names generalizing tree with
  | nil =>
      rw [List.append_nil]
      cases tree
      rfl
  | cons name rest ih =>
      have hTidy := ((wellFormed_iff tree).mp hTree).1
      have hLocation :
          (tree.write (name :: rest) value).location =
            ((tree.childFor name).write
              rest value).location := by
        cases tree
        rfl
      rw [hLocation, ih (wellFormed_childFor hTree name),
        path_childFor hTidy]
      simp [Path.below]

end Tree

end HierPath

------------------------------------------------------------
-- Names Of Nodes
------------------------------------------------------------

namespace HierPath

universe u

namespace Tree

variable {V : Type u}

/-
  The names that lead to a node can be listed without
  repetition, and the count of nodes is the length of the
  list.
-/
theorem WellFormed.exists_names_of_nodeCount
    {tree : Tree V}
    (hTree : tree.WellFormed) :
    ∃ distinct : List (List String),
      distinct.Nodup
        ∧ (∀ names, names ∈ distinct ↔
          (tree.descend? names).isSome = true)
        ∧ tree.nodeCount = distinct.length := by
  have hBelow :
      ∀ p ∈ tree.nodes.map path, ∃ names,
        p = ⟨tree.path.anchor,
          tree.path.segments ++ names⟩ := by
    intro p hPath
    rcases List.mem_map.mp hPath with ⟨node, hNode, rfl⟩
    rcases (hTree.mem_nodes_iff node).mp hNode with
      ⟨names, hFound⟩
    exact ⟨names, hTree.path_eq hFound⟩
  rcases Path.exists_names_below hTree.pairwise_nodes hBelow
    with ⟨distinct, hDistinct, hNames, hLength⟩
  refine ⟨distinct, hDistinct, ?_, ?_⟩
  · intro names
    rw [hNames, List.mem_map, Option.isSome_iff_exists]
    constructor
    · intro hListed
      rcases hListed with ⟨node, hNode, hPath⟩
      rcases (hTree.mem_nodes_iff node).mp hNode with
        ⟨others, hFound⟩
      rw [hTree.path_eq hFound] at hPath
      rw [← List.append_cancel_left
        (congrArg Path.segments hPath)]
      exact ⟨node, hFound⟩
    · intro hFound
      rcases hFound with ⟨node, hFound⟩
      exact ⟨node,
        (hTree.mem_nodes_iff node).mpr ⟨names, hFound⟩,
        hTree.path_eq hFound⟩
  · rw [hLength, List.length_map, length_nodes]

end Tree

end HierPath
