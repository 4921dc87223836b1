import HierPath.Proofs.Tree.Walking

/-
  Where the nodes of a tree are.

  The path of a node is the path of the top with the names
  that lead to the node put below it, whatever changes have
  made the node. So different nodes have different paths,
  and a child has the name that it is kept under as the end
  of its path.

  An entry of a node has at least the segments of the node,
  and those after them are the names that lead from the
  node to the entry. They can be cut off any entry that a
  walk from the node comes to.

  Key definitions include:
    * `Tree.Located`

  Key theorems include:
    * `Tree.WellFormed.walked_names`
    * `Tree.WellFormed.located`
    * `Tree.run_located`
-/

------------------------------------------------------------
-- Located Nodes
------------------------------------------------------------

namespace HierPath

universe u

namespace Tree

variable {V : Type u}

/-
  The node is the one that the names lead to below a path,
  and what it keeps agrees with that: the names of children
  are the ends of their paths, and the segments of an entry
  after those of the node lead from the node to the entry.
-/
structure Located
    (root : Path)
    (names : List String)
    (node : Tree V) : Prop where
  path_eq_join :
    ∀ anchor, node.path = root.join ⟨anchor, names⟩
  same_anchor : node.path.anchor = root.anchor
  child_named :
    ∀ name child,
      (name, child) ∈ node.children →
        child.path.segments.getLast? = some name
  entry_not_above :
    ∀ key value,
      (key, value) ∈ node.walk.toList →
        node.path.depth ≤ key.depth
  entry_walked :
    ∀ key value,
      (key, value) ∈ node.walk.toList →
        ∃ found,
          node.descend?
              (key.segments.drop node.path.depth) =
            some found
          ∧ found.path = key ∧ found.item = some value

namespace WellFormed

variable {tree node : Tree V}

/-
  The segments of an entry are those of the top and the
  names that lead from the top to the entry.
-/
theorem walked_names
    (hTree : tree.WellFormed)
    {key : Path}
    {value : V}
    (hEntry : (key, value) ∈ tree.entries) :
    tree.path.depth ≤ key.depth
      ∧ ∃ found,
        tree.descend?
            (key.segments.drop tree.path.depth) =
          some found
        ∧ found.path = key ∧ found.item = some value := by
  rcases hTree.exists_node_of_mem_entries hEntry with
    ⟨names, found, hFound, hPath, hItem, hSegments⟩
  constructor
  · unfold Path.depth
    rw [hSegments, List.length_append]
    exact Nat.le_add_right _ _
  · refine ⟨found, ?_, hPath, hItem⟩
    rw [hSegments, Path.depth, List.drop_left]
    exact hFound

/- The nodes of a well-formed tree are located in it. -/
theorem located
    (hTree : tree.WellFormed)
    {names : List String}
    (hNode : tree.descend? names = some node) :
    node.Located tree.path names := by
  have hBelow : node.WellFormed := hTree.of_descend? hNode
  have hPath := hTree.path_eq hNode
  refine
    { path_eq_join := ?_
      same_anchor := ?_
      child_named := ?_
      entry_not_above := ?_
      entry_walked := ?_ }
  · intro anchor
    exact hPath
  · rw [hPath]
  · intro name child hNamed
    have hTidy := ((wellFormed_iff node).mp hBelow).1
    have hChild : node.child? name = some child :=
      (Children.mem_iff_find? hTidy.sorted name child).mp
        hNamed
    rw [hTidy.labelled hChild]
    exact List.getLast?_concat
  · intro key value hEntry
    rw [toList_walk] at hEntry
    exact (hBelow.walked_names hEntry).1
  · intro key value hEntry
    rw [toList_walk] at hEntry
    exact (hBelow.walked_names hEntry).2

end WellFormed

end Tree

end HierPath

------------------------------------------------------------
-- Runs
------------------------------------------------------------

namespace HierPath

universe u

namespace Tree

variable {V : Type u}

/-
  After every run of changes, each node is located where
  names lead to it from the top, and no other node has its
  path.
-/
theorem run_located
    (root : Path)
    (edits : List (Edit V)) :
    let tree := (ofRoot root).run edits
    ∀ names node,
      tree.descend? names = some node →
        node.Located root names
          ∧ ∀ others other,
            tree.descend? others = some other →
              others ≠ names → other.path ≠ node.path := by
  intro tree names node hNode
  have hTree : tree.WellFormed := wellFormed_run root edits
  have hRoot : tree.path = root := path_run root edits
  constructor
  · rw [← hRoot]
    exact hTree.located hNode
  · intro others other hOther hNames hPath
    apply hNames
    exact hTree.names_eq_of_path_eq hOther hNode hPath

/-
  A node that is made on the way, below a top that is no
  root, has the names of the way after those of the top.
-/
theorem run_located_of_node_on_the_way :
    ∃ node,
      ((ofRoot ⟨.relative, ["r"]⟩).run
        [.add ⟨.absolute, ["a", "b"]⟩ 1]).descend? ["a"] =
          some node
        ∧ node.path = ⟨.relative, ["r", "a"]⟩
        ∧ (⟨.relative, ["r", "a", "b"]⟩, 1) ∈
          node.walk.toList
        ∧ ∃ found, node.descend? ["b"] = some found
          ∧ found.item = some 1 := by
  refine ⟨_, rfl, ?_⟩
  have hLocated := (run_located ⟨.relative, ["r"]⟩
    [.add ⟨.absolute, ["a", "b"]⟩ 1] ["a"] _ rfl).1
  have hEntry :
      ((⟨.relative, ["r", "a", "b"]⟩ : Path), 1) ∈
        Walk.toList (walk
          (node ⟨.relative, ["r", "a"]⟩ none
            [("b", node ⟨.relative, ["r", "a", "b"]⟩
              (some 1) [])])) := by
    decide +kernel
  refine ⟨hLocated.path_eq_join .absolute, hEntry, ?_⟩
  rcases hLocated.entry_walked _ _ hEntry with
    ⟨found, hFound, _, hItem⟩
  exact ⟨found, hFound, hItem⟩

end Tree

end HierPath
