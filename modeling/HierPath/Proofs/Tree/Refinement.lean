import HierPath.Proofs.Tree.Editing

/-
  Trees as maps from lists of names to values.

  A tree refines a map when each of its operations gives
  the answer and has the effect that the map calls for. A
  value counts as held whatever it is. Every run of changes
  leaves a tree that refines the map of its ledger, and so
  does each subtree, with the names of its place put in
  front.

  Key definitions include:
    * `Tree.Refines`

  Key theorems include:
    * `Tree.WellFormed.refines`
    * `Tree.run_refines_ledger`
-/

------------------------------------------------------------
-- Refinement
------------------------------------------------------------

namespace HierPath

universe u

namespace Tree

variable {V : Type u}

/-
  Each operation on the tree does what the map calls for.
  An assignment through a key changes what is held at the
  segments of the key and nothing else.
-/
structure Refines
    (tree : Tree V)
    (bindings : List String → Option V) : Prop where
  add_previous :
    ∀ key value,
      (tree.add key value).previous = bindings key.segments
  get_bound :
    ∀ key value,
      bindings key.segments = some value →
        tree.get key = .ok value
  get_unbound :
    ∀ key,
      bindings key.segments = none →
        tree.get key = .error (.notFound key)
  contains_iff :
    ∀ key,
      tree.contains key = true ↔
        ∃ value, bindings key.segments = some value
  assign_bound :
    ∀ key value old,
      bindings key.segments = some old →
        ∃ after, tree.assign key value = .ok (old, after) ∧
          ∀ other : Path,
            after.get other =
              if other.segments = key.segments then
                .ok value
              else
                tree.get other
  assign_unbound :
    ∀ key value,
      bindings key.segments = none →
        tree.assign key value = .error (.notFound key)
  subtree_reached :
    ∀ key : Path,
      (key.segments = [] ∨
        ∃ names value, key.segments <+: names ∧
          bindings names = some value) →
      ∃ found, tree.subtree key = .ok found
  subtree_unreached :
    ∀ key : Path,
      ¬ (key.segments = [] ∨
        ∃ names value, key.segments <+: names ∧
          bindings names = some value) →
      tree.subtree key = .error (.notFound key)

/-
  Names of a well-formed tree lead to a node exactly when
  they are a prefix of names with a value.
-/
private theorem WellFormed.descend?_eq_none_iff
    {tree : Tree V}
    (hTree : tree.WellFormed)
    (names : List String) :
    tree.descend? names = none ↔
      ¬ (names = [] ∨
        ∃ others value, names <+: others ∧
          tree.valueAt others = some value) := by
  have hNode := hTree.descend?_isSome_iff names
  have hPrefix :
      (∃ rest value,
          tree.valueAt (names ++ rest) = some value) ↔
        ∃ others value, names <+: others ∧
          tree.valueAt others = some value := by
    constructor
    · intro hBound
      rcases hBound with ⟨rest, value, hValue⟩
      exact ⟨_, value, List.prefix_append names rest, hValue⟩
    · intro hBound
      rcases hBound with ⟨_, value, ⟨rest, rfl⟩, hValue⟩
      exact ⟨rest, value, hValue⟩
  rw [hPrefix] at hNode
  rw [← hNode]
  simp

/- A well-formed tree refines the map of its own values. -/
theorem WellFormed.refines
    {tree : Tree V}
    (hTree : tree.WellFormed) :
    tree.Refines tree.valueAt := by
  refine
    { add_previous := ?_
      get_bound := ?_
      get_unbound := ?_
      contains_iff := ?_
      assign_bound := ?_
      assign_unbound := ?_
      subtree_reached := ?_
      subtree_unreached := ?_ }
  · intro key value
    exact previous_write tree key.segments value
  · intro key value hValue
    simp [get_eq, hValue]
  · intro key hValue
    simp [get_eq, hValue]
  · intro key
    rw [contains_eq, Option.isSome_iff_exists]
  · intro key value old hValue
    refine ⟨(tree.add key value).tree, ?_, ?_⟩
    · simp [assign_eq, hValue]
    · intro other
      rw [get_eq, get_eq, add, valueAt_write]
      by_cases hOther : other.segments = key.segments <;>
        simp [hOther]
  · intro key value hValue
    simp [assign_eq, hValue]
  · intro key hReached
    unfold subtree
    cases hFound : tree.descend? key.segments with
    | none =>
        exact absurd hReached
          ((hTree.descend?_eq_none_iff _).mp hFound)
    | some found =>
        exact ⟨found, rfl⟩
  · intro key hUnreached
    rw [subtree,
      (hTree.descend?_eq_none_iff _).mpr hUnreached]

/- An assignment where no value is held is none. -/
private theorem WellFormed.edit_assign_unbound
    {tree : Tree V}
    (hTree : tree.WellFormed)
    {place key : Path}
    (hUnbound :
      tree.valueAt (place.segments ++ key.segments) = none)
    (value : V) :
    tree.edit (.within place (.assign key value)) = tree := by
  cases hFound : tree.descend? place.segments with
  | none =>
      simp [edit, subtree, hFound]
  | some found =>
      rw [valueAt_append hFound] at hUnbound
      simp [edit, subtree, hFound, assign_eq, hUnbound,
        hTree.graft_self hFound]

/-
  Every run of changes leaves a tree that refines the map
  of its ledger. So does the subtree at any place, and a
  change whose look-up fails leaves the tree as it is.
-/
theorem run_refines_ledger
    (root : Path)
    (edits : List (Edit V)) :
    let tree := (ofRoot root).run edits
    let bindings := fun names =>
      (Ledger.ofEdits edits).lookup names
    tree.Refines bindings ∧
      (∀ place found,
        tree.subtree place = .ok found →
          found.Refines fun names =>
            bindings (place.segments ++ names)) ∧
      (∀ place key value,
        bindings (place.segments ++ key.segments) = none →
          tree.edit (.within place (.assign key value)) =
            tree) ∧
      (∀ place inner,
        tree.subtree place = .error (.notFound place) →
          tree.edit (.within place inner) = tree) := by
  intro tree bindings
  have hReplay : tree = Ledger.replay root _ :=
    Ledger.run_eq_replay root edits
  have hTree : tree.WellFormed := by
    rw [hReplay]
    exact Ledger.wellFormed_replay root _
  have hBindings : tree.valueAt = bindings := by
    funext names
    rw [hReplay, Ledger.valueAt_replay]
  refine ⟨?_, ?_, ?_, ?_⟩
  · rw [← hBindings]
    exact hTree.refines
  · intro place found hSubtree
    have hFound :=
      (subtree_eq_ok_iff tree place found).mp hSubtree
    have hShifted :
        found.valueAt =
          fun names => bindings (place.segments ++ names) := by
      funext names
      rw [← hBindings, valueAt_append hFound]
    rw [← hShifted]
    exact (hTree.of_descend? hFound).refines
  · intro place key value hUnbound
    rw [← hBindings] at hUnbound
    exact hTree.edit_assign_unbound hUnbound value
  · intro place inner hSubtree
    simp [edit, hSubtree]

/- An empty value is held like any other. -/
example :
    ((ofRoot .root).run
      [.add ⟨.absolute, ["unset"]⟩ (none : Option Unit)]).get
        ⟨.relative, ["unset"]⟩ = .ok none :=
  rfl

end Tree

end HierPath
