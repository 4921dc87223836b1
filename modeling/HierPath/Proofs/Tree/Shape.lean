import HierPath.Proofs.Tree.Writing

/-
  The shape that every tree keeps.

  A node is tidy when its children are sorted, each child
  has the path of the node with its name added, and each
  child leads to a value. A tree is well formed when all of
  its nodes are tidy. A tree without nodes below its top is
  well formed, and writes keep it so.

  The shape ties nodes to values: in a well-formed tree a
  list of names leads to a node exactly when it is empty or
  can be continued to a value.

  Key definitions include:
    * `Tree.Tidy`
    * `Tree.WellFormed`

  Key theorems include:
    * `Tree.wellFormed_write`
    * `Tree.WellFormed.path_eq`
    * `Tree.WellFormed.descend?_isSome_iff`
    * `Tree.WellFormed.graft_self`
-/

------------------------------------------------------------
-- Well-Formed Trees
------------------------------------------------------------

namespace HierPath

universe u

namespace Tree

variable {V : Type u}

/- What holds between a node and its children. -/
structure Tidy
    (tree : Tree V) : Prop where
  sorted : Children.Sorted tree.children
  labelled :
    ∀ {name : String} {child : Tree V},
      tree.child? name = some child →
        child.path = tree.path.below name
  populated :
    ∀ {name : String} {child : Tree V},
      tree.child? name = some child →
        ∃ names value, child.valueAt names = some value

/- Every node of the tree is tidy. -/
def WellFormed
    (tree : Tree V) : Prop :=
  ∀ names found,
    tree.descend? names = some found → found.Tidy

/- A tree is well formed from the top down. -/
theorem wellFormed_iff
    (tree : Tree V) :
    tree.WellFormed ↔
      tree.Tidy ∧
        ∀ name child,
          tree.child? name = some child →
            child.WellFormed := by
  constructor
  · intro hTree
    refine ⟨hTree [] tree (descend?_nil tree), ?_⟩
    intro name child hChild names found hFound
    apply hTree (name :: names) found
    rw [descend?_cons, hChild]
    exact hFound
  · intro hParts names found hFound
    rcases hParts with ⟨hTidy, hChildren⟩
    cases names with
    | nil =>
        rwa [← eq_of_descend?_nil hFound]
    | cons name rest =>
        rcases descend?_cons_eq_some_iff.mp hFound with
          ⟨child, hChild, hRest⟩
        exact hChildren name child hChild rest found hRest

/- A tree without children is well formed. -/
theorem wellFormed_ofRoot
    (path : Path) :
    (ofRoot path : Tree V).WellFormed := by
  apply (wellFormed_iff _).mpr
  refine
    ⟨{ sorted := .nil
       labelled := ?_
       populated := ?_ }, ?_⟩
  · intro name child hChild
    simp at hChild
  · intro name child hChild
    simp at hChild
  · intro name child hChild
    simp at hChild

/-
  A tree stays well formed when its children are exchanged
  for well-formed ones that lead to values and have the
  right paths.
-/
private theorem wellFormed_of_children
    {tree after : Tree V}
    (hTree : tree.WellFormed)
    (hPath : after.path = tree.path)
    (hSorted : Children.Sorted after.children)
    (hChildren :
      ∀ name child,
        after.child? name = some child →
          tree.child? name = some child ∨
            child.WellFormed ∧
              child.path = tree.path.below name ∧
                ∃ names value,
                  child.valueAt names = some value) :
    after.WellFormed := by
  rcases (wellFormed_iff tree).mp hTree with
    ⟨hTidy, hBelow⟩
  apply (wellFormed_iff after).mpr
  refine
    ⟨{ sorted := hSorted
       labelled := ?_
       populated := ?_ }, ?_⟩
  · intro name child hChild
    rw [hPath]
    rcases hChildren name child hChild with hOld | hNew
    · exact hTidy.labelled hOld
    · exact hNew.2.1
  · intro name child hChild
    rcases hChildren name child hChild with hOld | hNew
    · exact hTidy.populated hOld
    · exact hNew.2.2
  · intro name child hChild
    rcases hChildren name child hChild with hOld | hNew
    · exact hBelow name child hOld
    · exact hNew.1

/- A child that a write goes on in is well formed. -/
theorem wellFormed_childFor
    {tree : Tree V}
    (hTree : tree.WellFormed)
    (name : String) :
    (tree.childFor name).WellFormed := by
  unfold childFor
  cases hChild : tree.child? name with
  | none =>
      exact wellFormed_ofRoot _
  | some child =>
      exact ((wellFormed_iff tree).mp hTree).2
        name child hChild

/- Its path has the name added. -/
theorem path_childFor
    {tree : Tree V}
    (hTidy : tree.Tidy)
    (name : String) :
    (tree.childFor name).path = tree.path.below name := by
  unfold childFor
  cases hChild : tree.child? name with
  | none => rfl
  | some child => exact hTidy.labelled hChild

/- A write keeps a tree well formed. -/
theorem wellFormed_write
    {tree : Tree V}
    (hTree : tree.WellFormed)
    (names : List String)
    (value : V) :
    (tree.write names value).tree.WellFormed := by
  induction names generalizing tree with
  | nil =>
      have hTidy := hTree [] tree (descend?_nil tree)
      apply wellFormed_of_children hTree
      · rw [path_write]
      · rw [children_write_nil]
        exact hTidy.sorted
      · intro name child hChild
        unfold child? at hChild
        rw [children_write_nil] at hChild
        exact Or.inl hChild
  | cons name rest ih =>
      have hTidy := hTree [] tree (descend?_nil tree)
      have hBelow := ih (wellFormed_childFor hTree name)
      apply wellFormed_of_children hTree
      · rw [path_write]
      · rw [children_write_cons]
        exact Children.sorted_insert name _ hTidy.sorted
      · -- A child is the one that was written, which leads
        -- to the new value, or an old one.
        intro other child hChild
        rw [child?_write_cons] at hChild
        split at hChild
        next hName =>
          subst other
          cases hChild
          refine Or.inr ⟨hBelow, ?_, rest, value, ?_⟩
          · rw [path_write, path_childFor hTidy]
          · simp [valueAt_write]
        next =>
          exact Or.inl hChild

end Tree

end HierPath

------------------------------------------------------------
-- Nodes Of Well-Formed Trees
------------------------------------------------------------

namespace HierPath

universe u

namespace Tree

namespace WellFormed

variable {V : Type u}
variable {tree found : Tree V}
variable {names : List String}

/- The subtrees of a well-formed tree are well formed. -/
theorem of_descend?
    (hTree : tree.WellFormed)
    (hFound : tree.descend? names = some found) :
    found.WellFormed := by
  intro others node hNode
  apply hTree (names ++ others) node
  rw [descend?_append, hFound]
  exact hNode

/- A node has the path of the top and the names below it. -/
theorem path_eq
    (hTree : tree.WellFormed)
    (hFound : tree.descend? names = some found) :
    found.path =
      ⟨tree.path.anchor, tree.path.segments ++ names⟩ := by
  induction names generalizing tree with
  | nil =>
      rw [← eq_of_descend?_nil hFound, List.append_nil]
  | cons name rest ih =>
      rcases descend?_cons_eq_some_iff.mp hFound with
        ⟨child, hChild, hRest⟩
      rcases (wellFormed_iff tree).mp hTree with
        ⟨hTidy, hChildren⟩
      rw [ih (hChildren name child hChild) hRest,
        hTidy.labelled hChild]
      simp [Path.below]

/-
  Names lead to a node exactly when there are none of them
  or they can be continued to a value.
-/
theorem descend?_isSome_iff
    (hTree : tree.WellFormed)
    (names : List String) :
    (tree.descend? names).isSome = true ↔
      names = [] ∨
        ∃ rest value,
          tree.valueAt (names ++ rest) = some value := by
  constructor
  · intro hSome
    rcases Option.isSome_iff_exists.mp hSome with
      ⟨found, hFound⟩
    rcases List.eq_nil_or_concat names with
      hNil | ⟨above, name, hConcat⟩
    · exact Or.inl hNil
    · right
      rw [List.concat_eq_append] at hConcat
      rw [hConcat, descend?_append] at hFound
      rcases Option.bind_eq_some_iff.mp hFound with
        ⟨parent, hParent, hChild⟩
      rcases descend?_cons_eq_some_iff.mp hChild with
        ⟨child, hChild, _⟩
      rcases (hTree above parent hParent).populated hChild
        with ⟨rest, value, hValue⟩
      refine ⟨rest, value, ?_⟩
      rw [hConcat, List.append_assoc,
        valueAt_append hParent, List.singleton_append,
        valueAt_cons, hChild]
      exact hValue
  · intro hReached
    rcases hReached with rfl | ⟨rest, value, hValue⟩
    · simp
    · unfold valueAt at hValue
      rw [descend?_append] at hValue
      cases hFound : tree.descend? names with
      | none => simp [hFound] at hValue
      | some found => rfl

/- A node grafted in its own place changes nothing. -/
theorem graft_self
    (hTree : tree.WellFormed)
    (hFound : tree.descend? names = some found) :
    tree.graft names found = tree := by
  induction names generalizing tree with
  | nil =>
      rw [eq_of_descend?_nil hFound]
      rfl
  | cons name rest ih =>
      rcases descend?_cons_eq_some_iff.mp hFound with
        ⟨child, hChild, hRest⟩
      rcases (wellFormed_iff tree).mp hTree with
        ⟨hTidy, hChildren⟩
      rw [graft_cons hChild,
        ih (hChildren name child hChild) hRest,
        Children.insert_find? hTidy.sorted hChild]
      cases tree
      rfl

end WellFormed

end Tree

end HierPath
