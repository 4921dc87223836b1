import HierPath.Event
import HierPath.Proofs.Tree.Writing

/-
  Working in a subtree, and working at the joined path.

  A write that passes through a node is the write that the
  node makes on its own, put back in the place of the node:
  nothing is made and nothing is told on the way there. So
  each operation on a subtree can be done from the top, at
  the path of its place with the key put below it. The
  answers are the same, and where nothing is found they
  differ in the key that was asked for.

  Only the nodes on the way to the key are touched, and of
  these only the last one gets another value.

  Key definitions include:
    * `SameAnswer`
    * `Tree.WorksThrough`

  Key theorems include:
    * `Tree.descend?_write_of_prefix`
    * `Tree.descend?_write_of_not_prefix`
    * `Tree.worksThrough_of_subtree`
-/

------------------------------------------------------------
-- Writing Through A Node
------------------------------------------------------------

namespace HierPath

universe u

namespace Tree

variable {V : Type u}

/- A node on the way is written with the names after it. -/
theorem descend?_write_of_prefix
    {tree found : Tree V}
    {names : List String}
    (hFound : tree.descend? names = some found)
    (rest : List String)
    (value : V) :
    (tree.write (names ++ rest) value).tree.descend? names =
      some (found.write rest value).tree := by
  rw [write_append hFound]
  exact descend?_graft hFound _

/- The nodes below a new child are those of the old one. -/
theorem descend?_childFor
    (tree : Tree V)
    (name : String)
    {rest : List String}
    (hRest : rest ≠ []) :
    (tree.childFor name).descend? rest =
      tree.descend? (name :: rest) := by
  rw [descend?_cons, childFor]
  cases tree.child? name with
  | some child =>
      rfl
  | none =>
      cases rest with
      | nil => exact absurd rfl hRest
      | cons below rest => simp [descend?_cons]

/- A node that is not on the way stays as it is. -/
theorem descend?_write_of_not_prefix
    (tree : Tree V)
    {names others : List String}
    (hOff : ¬ others <+: names)
    (value : V) :
    (tree.write names value).tree.descend? others =
      tree.descend? others := by
  induction names generalizing tree others with
  | nil =>
      cases others with
      | nil =>
          exact absurd List.nil_prefix hOff
      | cons other rest =>
          simp [descend?_cons, child?]
  | cons name names ih =>
      cases others with
      | nil =>
          exact absurd List.nil_prefix hOff
      | cons other rest =>
          rw [descend?_cons, child?_write_cons]
          by_cases hName : name = other
          · subst other
            have hRest : ¬ rest <+: names := by
              simpa using hOff
            have hBelow : rest ≠ [] := by
              rintro rfl
              exact hRest List.nil_prefix
            simp [ih (tree.childFor name) hRest,
              descend?_childFor tree name hBelow]
          · simp [hName, descend?_cons]

end Tree

end HierPath

------------------------------------------------------------
-- Joined Paths
------------------------------------------------------------

namespace HierPath

universe u

/-
  Two look-ups have found the same, or both have found
  nothing and report the keys that they were asked for.
-/
inductive SameAnswer
    {α : Type u}
    (key other : Path) :
    Except PathError α → Except PathError α → Prop where
  | found (answer : α) :
      SameAnswer key other (.ok answer) (.ok answer)
  | missing :
      SameAnswer key other
        (.error (.notFound key)) (.error (.notFound other))

namespace Tree

variable {V : Type u}

/-
  Work on the node at a place is work on the whole tree at
  the joined path. What the node becomes is put back in its
  place.
-/
structure WorksThrough
    (tree : Tree V)
    (place : Path)
    (found : Tree V) : Prop where
  add_tree :
    ∀ key value,
      tree.graft place.segments (found.add key value).tree =
        (tree.add (place.join key) value).tree
  add_previous :
    ∀ key value,
      (found.add key value).previous =
        (tree.add (place.join key) value).previous
  add_events :
    ∀ key value,
      (found.add key value).events =
        (tree.add (place.join key) value).events
  add_elsewhere :
    ∀ key value names,
      ¬ names <+: (place.join key).segments →
        (tree.graft place.segments
            (found.add key value).tree).descend? names =
          tree.descend? names
  add_on_the_way :
    ∀ key value names node,
      names <+: (place.join key).segments →
        tree.descend? names = some node →
          ∃ after,
            (tree.graft place.segments
                (found.add key value).tree).descend? names =
              some after
            ∧ after.path = node.path
            ∧ (names ≠ (place.join key).segments →
              after.item = node.item)
  get_same :
    ∀ key,
      SameAnswer key (place.join key)
        (found.get key) (tree.get (place.join key))
  contains_same :
    ∀ key,
      found.contains key = tree.contains (place.join key)
  assign_same :
    ∀ key value,
      SameAnswer key (place.join key)
        ((found.assign key value).map fun assigned =>
          (assigned.1,
            tree.graft place.segments assigned.2))
        (tree.assign (place.join key) value)
  assign_elsewhere :
    ∀ key value old after,
      found.assign key value = .ok (old, after) →
        ∀ names,
          ¬ names <+: (place.join key).segments →
            (tree.graft place.segments after).descend?
                names =
              tree.descend? names
  subtree_same :
    ∀ key,
      SameAnswer key (place.join key)
        (found.subtree key) (tree.subtree (place.join key))

/- A node on the way keeps its path. -/
private theorem on_the_way_of_write
    {tree node : Tree V}
    {names all : List String}
    (hPrefix : names <+: all)
    (hNode : tree.descend? names = some node)
    (value : V) :
    ∃ after,
      (tree.write all value).tree.descend? names = some after
        ∧ after.path = node.path
        ∧ (names ≠ all → after.item = node.item) := by
  rcases hPrefix with ⟨rest, rfl⟩
  refine ⟨_, descend?_write_of_prefix hNode rest value,
    path_write node rest value, ?_⟩
  intro hAbove
  cases rest with
  | nil => simp at hAbove
  | cons name rest => exact item_write_cons ..

/-
  Whatever node is at a place, all work on it is work on
  the tree at the joined path.
-/
theorem worksThrough_of_subtree
    {tree found : Tree V}
    {place : Path}
    (hPlace : tree.subtree place = .ok found) :
    tree.WorksThrough place found := by
  have hFound :=
    (subtree_eq_ok_iff tree place found).mp hPlace
  have hWrite (key : Path) (value : V) :=
    write_append hFound key.segments value
  have hTree (key : Path) (value : V) :
      tree.graft place.segments (found.add key value).tree =
        (tree.add (place.join key) value).tree :=
    graft_write hFound key.segments value
  have hValue (key : Path) :
      tree.valueAt (place.join key).segments =
        found.valueAt key.segments :=
    valueAt_append hFound key.segments
  have hNode (key : Path) :
      tree.descend? (place.join key).segments =
        found.descend? key.segments := by
    change tree.descend? (place.segments ++ key.segments) = _
    rw [descend?_append, hFound]
    rfl
  refine
    { add_tree := hTree
      add_previous := ?_
      add_events := ?_
      add_elsewhere := ?_
      add_on_the_way := ?_
      get_same := ?_
      contains_same := ?_
      assign_same := ?_
      assign_elsewhere := ?_
      subtree_same := ?_ }
  · intro key value
    exact (congrArg Written.previous (hWrite key value)).symm
  · intro key value
    exact (congrArg Written.events (hWrite key value)).symm
  · intro key value names hOff
    rw [hTree]
    exact descend?_write_of_not_prefix tree hOff value
  · intro key value names node hPrefix hReached
    rw [hTree]
    exact on_the_way_of_write hPrefix hReached value
  · intro key
    unfold get
    rw [hNode]
    cases (found.descend? key.segments).bind item with
    | none => exact .missing
    | some value => exact .found value
  · intro key
    unfold contains
    rw [hNode]
  · intro key value
    rw [assign_eq, assign_eq, hValue, ← hTree]
    cases found.valueAt key.segments with
    | none => exact .missing
    | some old => exact .found (old, _)
  · intro key value old after hAssign names hOff
    rw [assign_eq] at hAssign
    cases hHeld : found.valueAt key.segments with
    | none =>
        simp [hHeld] at hAssign
    | some held =>
        rw [hHeld] at hAssign
        cases hAssign
        rw [hTree]
        exact descend?_write_of_not_prefix tree hOff value
  · intro key
    unfold subtree
    rw [hNode]
    cases found.descend? key.segments with
    | none => exact .missing
    | some node => exact .found node

/-
  Nodes that are missing below a place are made and told in
  the same way from the top, whatever the anchor of the key.
-/
theorem worksThrough_of_subtree_of_missing_nodes :
    let tree := ((ofRoot ⟨.relative, ["r"]⟩).add
      ⟨.absolute, ["a", "b"]⟩ 1).tree
    let place : Path := ⟨.relative, ["a"]⟩
    let key : Path := ⟨.absolute, ["x", "y"]⟩
    ∃ found,
      tree.subtree place = .ok found
        ∧ tree.graft place.segments (found.add key 2).tree =
          (tree.add (place.join key) 2).tree
        ∧ (tree.add (place.join key) 2).events =
          [.created ⟨.relative, ["r", "a", "x", "y"]⟩ 2]
        ∧ (found.add key 2).events =
          (tree.add (place.join key) 2).events
        ∧ SameAnswer key (place.join key)
          (found.get key) (tree.get (place.join key)) := by
  intro tree place key
  have hThrough :=
    worksThrough_of_subtree (rfl : tree.subtree place = .ok _)
  exact ⟨_, rfl, hThrough.add_tree key 2, rfl,
    hThrough.add_events key 2, hThrough.get_same key⟩

end Tree

end HierPath
