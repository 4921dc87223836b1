import HierPath.Tree.Basic

/-
  Walks through the entries of a tree that can be stopped
  and taken up again.

  A walk is the list of the subtrees that it has still to
  visit, the next one first. A step takes the first subtree
  apart: its children go to the front, and its own value,
  if it has one, is the entry of the step. Nodes without a
  value are passed over.

  Key definitions include:
    * `Walk`
    * `Tree.walk`
    * `Walk.size`
    * `Walk.next?`
    * `Walk.advance`
    * `Walk.toList`
-/

------------------------------------------------------------
-- Walks
------------------------------------------------------------

namespace HierPath

universe u

/- A walk that has still to visit these subtrees. -/
structure Walk (V : Type u) where
  pending : List (Tree V)

namespace Tree

variable {V : Type u}

/- The walk that starts at the top of a tree. -/
def walk
    (tree : Tree V) : Walk V :=
  ⟨[tree]⟩

/- The number of nodes of all trees of a list. -/
def totalNodes
    (trees : List (Tree V)) : Nat :=
  trees.foldr (fun tree n => tree.nodeCount + n) 0

/- Two lists of trees have the nodes of both. -/
theorem totalNodes_append
    (trees others : List (Tree V)) :
    totalNodes (trees ++ others) =
      totalNodes trees + totalNodes others := by
  induction trees with
  | nil =>
      simp [totalNodes]
  | cons tree rest ih =>
      simp only [totalNodes, List.cons_append,
        List.foldr_cons] at ih ⊢
      omega

/- The nodes of named trees are those of the trees. -/
theorem totalNodes_map
    (children : List (String × Tree V)) :
    totalNodes (children.map Prod.snd) =
      nodeCountAll children := by
  induction children with
  | nil =>
      rfl
  | cons named rest ih =>
      simp only [totalNodes, List.map_cons,
        List.foldr_cons, nodeCountAll] at ih ⊢
      omega

/- A tree has one node more than its branches have. -/
theorem nodeCount_eq
    (tree : Tree V) :
    tree.nodeCount = 1 + totalNodes tree.branches := by
  cases tree with
  | node path item named =>
      rw [branches, children, totalNodes_map, nodeCount]

end Tree

namespace Walk

variable {V : Type u}

/- The number of nodes that a walk has still to visit. -/
def size
    (walk : Walk V) : Nat :=
  Tree.totalNodes walk.pending

/-
  The next entry and the walk after it. Every node that is
  passed over makes the walk smaller.
-/
def next? : Walk V → Option ((Path × V) × Walk V)
  | ⟨[]⟩ => none
  | ⟨tree :: rest⟩ =>
      let after : Walk V := ⟨tree.branches ++ rest⟩
      match tree.item with
      | some value => some ((tree.path, value), after)
      | none => next? after
termination_by walk => walk.size
decreasing_by
  have hNodes := Tree.nodeCount_eq tree
  have hSplit :=
    Tree.totalNodes_append tree.branches rest
  simp only [size, Tree.totalNodes, List.foldr_cons]
    at hNodes hSplit ⊢
  omega

/- At most `n` steps of a walk, and what is left of it. -/
def advance : Nat → Walk V → List (Path × V) × Walk V
  | 0, walk => ([], walk)
  | n + 1, walk =>
      match walk.next? with
      | none => ([], walk)
      | some (entry, after) =>
          let (entries, final) := advance n after
          (entry :: entries, final)

/-
  All entries that a walk has left. A step visits at least
  one node, so the size of the walk bounds their number.
-/
def toList
    (walk : Walk V) : List (Path × V) :=
  (walk.advance walk.size).1

end Walk

end HierPath
