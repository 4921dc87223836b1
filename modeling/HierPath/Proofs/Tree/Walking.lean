import HierPath.Tree.Walk
import HierPath.Proofs.Tree.Editing
import HierPath.Proofs.Tree.Entries
import Mathlib.Logic.ExistsUnique

/-
  Walks visit the entries of a tree, in order and once.

  What a walk has left is told by the subtrees that it has
  still to visit: their entries, one subtree after another.
  A step takes the first entry of these, however many nodes
  without a value it passes over, so any number of steps
  takes that many entries, and a walk that is stopped has
  exactly the others left.

  The walk of a tree has all entries of the tree left.

  Key definitions include:
    * `Walk.remaining`
    * `Tree.Enumerates`

  Key theorems include:
    * `Walk.remaining_eq`
    * `Walk.advance_eq`
    * `Tree.toList_walk`
    * `Tree.WellFormed.enumerates`
    * `Tree.run_walk_enumerates`
-/

------------------------------------------------------------
-- Steps Of A Walk
------------------------------------------------------------

namespace HierPath

universe u

namespace Walk

variable {V : Type u}

/- The entries that a walk has still to come to. -/
def remaining
    (walk : Walk V) : List (Path × V) :=
  walk.pending.flatMap Tree.entries

/- A subtree gives way to its own entry and its branches. -/
private theorem remaining_cons
    (tree : Tree V)
    (rest : List (Tree V)) :
    remaining ⟨tree :: rest⟩ =
      (tree.item.map fun value => (tree.path, value)).toList
        ++ remaining ⟨tree.branches ++ rest⟩ := by
  unfold remaining
  rw [List.flatMap_cons, Tree.entries_eq,
    List.flatMap_append, List.append_assoc]

/- A step takes the first of the entries that are left. -/
theorem remaining_eq
    (walk : Walk V) :
    walk.remaining =
      match walk.next? with
      | none => []
      | some (entry, after) => entry :: after.remaining := by
  fun_induction next? walk with
  | case1 =>
      rfl
  | case2 tree rest after value hItem =>
      rw [remaining_cons, hItem]
      rfl
  | case3 tree rest after hItem ih =>
      -- A node without a value adds nothing.
      rw [remaining_cons, hItem, ← ih]
      rfl

/-
  Any number of steps takes that many entries, as far as
  there are any, and leaves the others.
-/
theorem advance_eq
    (n : Nat)
    (walk : Walk V) :
    (walk.advance n).1 = walk.remaining.take n
      ∧ (walk.advance n).2.remaining =
        walk.remaining.drop n := by
  induction n generalizing walk with
  | zero =>
      exact ⟨rfl, rfl⟩
  | succ n ih =>
      unfold advance
      cases hNext : walk.next? with
      | none =>
          have hNone : walk.remaining = [] := by
            rw [remaining_eq, hNext]
          rw [hNone, List.take_nil, List.drop_nil]
          exact ⟨rfl, rfl⟩
      | some step =>
          rcases step with ⟨entry, after⟩
          have hSome :
              walk.remaining = entry :: after.remaining := by
            rw [remaining_eq, hNext]
          rw [hSome, List.take_succ_cons,
            List.drop_succ_cons]
          rcases ih after with ⟨hTaken, hLeft⟩
          exact ⟨congrArg (entry :: ·) hTaken, hLeft⟩

end Walk

end HierPath

------------------------------------------------------------
-- Whole Walks
------------------------------------------------------------

namespace HierPath

universe u

namespace Tree

variable {V : Type u}

/- Trees have no more entries than nodes, one by one. -/
private theorem length_flatMap_entries_le
    {trees : List (Tree V)}
    (hTrees :
      ∀ tree ∈ trees, tree.entries.length ≤ tree.nodeCount) :
    (trees.flatMap entries).length ≤ totalNodes trees := by
  induction trees with
  | nil =>
      exact Nat.le_refl _
  | cons tree rest ih =>
      have hFirst := hTrees tree List.mem_cons_self
      have hRest := ih fun other hOther =>
        hTrees other (List.mem_cons_of_mem tree hOther)
      rw [List.flatMap_cons, List.length_append]
      exact Nat.add_le_add hFirst hRest

/- A tree has no more entries than nodes. -/
theorem length_entries_le
    (tree : Tree V) :
    tree.entries.length ≤ tree.nodeCount := by
  induction tree using induction_on_branches with
  | step tree ih =>
      have hBelow := length_flatMap_entries_le ih
      rw [entries_eq, nodeCount_eq, List.length_append]
      apply Nat.add_le_add ?_ hBelow
      cases tree.item <;> simp

end Tree

namespace Walk

variable {V : Type u}

/- The list of a walk is what the walk has left. -/
theorem toList_eq
    (walk : Walk V) :
    walk.toList = walk.remaining := by
  have hBound : walk.remaining.length ≤ walk.size :=
    Tree.length_flatMap_entries_le fun tree _ =>
      tree.length_entries_le
  rw [toList, (advance_eq walk.size walk).1,
    List.take_of_length_le hBound]

end Walk

namespace Tree

variable {V : Type u}

/- The walk of a tree comes to the entries of the tree. -/
theorem toList_walk
    (tree : Tree V) :
    tree.walk.toList = tree.entries := by
  rw [Walk.toList_eq]
  exact List.append_nil _

/-
  A walk that is stopped after any number of steps has the
  other entries left. They are the list of the walk as it
  was stopped, and further steps go on with them.
-/
theorem advance_walk
    (tree : Tree V)
    (k : Nat) :
    (tree.walk.advance k).1 = tree.walk.toList.take k
      ∧ (tree.walk.advance k).1
          ++ (tree.walk.advance k).2.toList =
        tree.walk.toList
      ∧ ∀ n, ((tree.walk.advance k).2.advance n).1 =
        (tree.walk.advance k).2.toList.take n := by
  rcases Walk.advance_eq k tree.walk with ⟨hTaken, hLeft⟩
  refine ⟨?_, ?_, ?_⟩
  · rw [hTaken, Walk.toList_eq]
  · rw [hTaken, Walk.toList_eq, hLeft, Walk.toList_eq,
      List.take_append_drop]
  · intro n
    rw [(Walk.advance_eq n _).1, Walk.toList_eq]

end Tree

end HierPath

------------------------------------------------------------
-- Enumerations
------------------------------------------------------------

namespace HierPath

universe u

namespace Tree

variable {V : Type u}

/-
  The list has the path and the value of every node with a
  value, at one place each, and nothing else. It ascends in
  the order of paths, so a node comes before those below it,
  and whatever lies below two names comes in the order of
  the names.
-/
structure Enumerates
    (tree : Tree V)
    (items : List (Path × V)) : Prop where
  every_node :
    ∀ names node value,
      tree.descend? names = some node →
        node.item = some value →
          ∃! i : Nat, items[i]? = some (node.path, value)
  only_nodes :
    ∀ (i : Nat) (key : Path) (value : V),
      items[i]? = some (key, value) →
        ∃! names, ∃ node,
          tree.descend? names = some node
            ∧ node.path = key ∧ node.item = some value
  ascending :
    items.Pairwise fun first second =>
      compare first.1 second.1 = .lt
  parent_first :
    ∀ (i j : Nat) (first second : Path × V),
      items[i]? = some first → items[j]? = some second →
        second.1.startsWith first.1 = true →
          first.1 ≠ second.1 → i < j
  siblings_in_order :
    ∀ (i j : Nat) (first second : Path × V)
      (anchor : Anchor) (base : List String)
      (name other : String) (rest others : List String),
      items[i]? = some first → items[j]? = some second →
        first.1 = ⟨anchor, base ++ name :: rest⟩ →
          second.1 = ⟨anchor, base ++ other :: others⟩ →
            compare name other = .lt → i < j

namespace WellFormed

variable {tree : Tree V}

/- Nodes with one path are one node. -/
theorem names_eq_of_path_eq
    (hTree : tree.WellFormed)
    {names others : List String}
    {node twin : Tree V}
    (hNode : tree.descend? names = some node)
    (hTwin : tree.descend? others = some twin)
    (hPath : node.path = twin.path) :
    names = others := by
  rw [hTree.path_eq hNode, hTree.path_eq hTwin] at hPath
  exact List.append_cancel_left
    (congrArg Path.segments hPath)

/- The entry of a node with a value. -/
private theorem mem_entries_of_node
    (hTree : tree.WellFormed)
    {names : List String}
    {node : Tree V}
    {value : V}
    (hNode : tree.descend? names = some node)
    (hItem : node.item = some value) :
    (node.path, value) ∈ tree.entries := by
  apply (hTree.mem_entries_iff _ _).mpr
  refine ⟨names, ?_, hTree.path_eq hNode⟩
  unfold valueAt
  rw [hNode]
  exact hItem

/- Every entry is that of a node with a value. -/
theorem exists_node_of_mem_entries
    (hTree : tree.WellFormed)
    {key : Path}
    {value : V}
    (hEntry : (key, value) ∈ tree.entries) :
    ∃ names node, tree.descend? names = some node
      ∧ node.path = key ∧ node.item = some value
      ∧ key.segments = tree.path.segments ++ names := by
  rcases (hTree.mem_entries_iff key value).mp hEntry with
    ⟨names, hValue, rfl⟩
  rcases Option.bind_eq_some_iff.mp hValue with
    ⟨node, hNode, hItem⟩
  exact ⟨names, node, hNode, hTree.path_eq hNode, hItem,
    rfl⟩

/- The entries of a well-formed tree enumerate it. -/
theorem enumerates
    (hTree : tree.WellFormed) :
    tree.Enumerates tree.entries := by
  refine
    { every_node := ?_
      only_nodes := ?_
      ascending := hTree.pairwise_entries
      parent_first := ?_
      siblings_in_order := ?_ }
  · intro names node value hNode hItem
    rcases List.mem_iff_getElem?.mp
        (hTree.mem_entries_of_node hNode hItem) with
      ⟨i, hEntry⟩
    refine ⟨i, hEntry, ?_⟩
    intro j hAgain
    have hBefore := hTree.index_lt_iff hAgain hEntry
    have hAfter := hTree.index_lt_iff hEntry hAgain
    simp only [Std.ReflCmp.compare_self, reduceCtorEq,
      iff_false] at hBefore hAfter
    omega
  · intro i key value hEntry
    rcases hTree.exists_node_of_mem_entries
        (List.mem_of_getElem? hEntry) with
      ⟨names, node, hNode, hPath, hItem, _⟩
    refine ⟨names, ⟨node, hNode, hPath, hItem⟩, ?_⟩
    intro others hOthers
    rcases hOthers with ⟨twin, hTwin, hTwinPath, _⟩
    apply hTree.names_eq_of_path_eq hTwin hNode
    rw [hTwinPath, hPath]
  · intro i j first second hFirst hSecond hBelow hOther
    apply (hTree.index_lt_iff hFirst hSecond).mpr
    exact Path.compare_of_startsWith hBelow hOther
  · intro i j first second anchor base name other rest
      others hFirst hSecond hKey hOtherKey hNames
    apply (hTree.index_lt_iff hFirst hSecond).mpr
    rw [hKey, hOtherKey]
    exact Path.compare_below anchor base hNames rest others

end WellFormed

/-
  The walk of a tree that is built by a run of changes
  enumerates the tree. It can be stopped anywhere and taken
  up again, and the walk of a subtree is a part of it.
-/
theorem run_walk_enumerates
    (root : Path)
    (edits : List (Edit V)) :
    let tree := (ofRoot root).run edits
    tree.Enumerates tree.walk.toList
      ∧ (∀ k,
        (tree.walk.advance k).1 = tree.walk.toList.take k
          ∧ (tree.walk.advance k).1
              ++ (tree.walk.advance k).2.toList =
            tree.walk.toList
          ∧ ∀ n, ((tree.walk.advance k).2.advance n).1 =
            (tree.walk.advance k).2.toList.take n)
      ∧ (∀ place found,
        tree.subtree place = .ok found →
          found.walk.toList <:+: tree.walk.toList) := by
  intro tree
  have hTree : tree.WellFormed := wellFormed_run root edits
  refine ⟨?_, tree.advance_walk, ?_⟩
  · rw [toList_walk]
    exact hTree.enumerates
  · intro place found hSubtree
    rw [toList_walk, toList_walk]
    apply hTree.entries_infix
    exact (subtree_eq_ok_iff tree place found).mp hSubtree

/-
  A walk passes over nodes without a value, and it can be
  taken up again where it was stopped.
-/
example :
    let tree := (ofRoot .root).run
      [.add ⟨.absolute, ["b"]⟩ 2,
        .add ⟨.absolute, ["a", "x"]⟩ 4,
        .within ⟨.absolute, ["a"]⟩
          (.add ⟨.relative, []⟩ 1)]
    let stopped := tree.walk.advance 2
    stopped.1 =
        [(⟨.absolute, ["a"]⟩, 1),
          (⟨.absolute, ["a", "x"]⟩, 4)]
      ∧ stopped.2.toList = [(⟨.absolute, ["b"]⟩, 2)] := by
  decide +kernel

end Tree

end HierPath
