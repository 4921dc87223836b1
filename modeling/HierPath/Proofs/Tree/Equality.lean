import HierPath.Proofs.Tree.Editing
import HierPath.Proofs.Tree.Entries

/-
  Equality of trees.

  Trees are compared node by node, with all paths, values
  and children, also where a node holds no value. Yet no
  history of changes shows in this: well-formed trees are
  equal exactly when their tops have the same path and all
  names lead to equal values.

  So trees that are built from one top by writes are equal
  as soon as the same values were written last, the order
  of writes at different keys does not matter, and to write
  a value that is held already changes nothing.

  Values are compared by their own `==`, which need not be
  the equality of Lean.

  Key theorems include:
    * `Tree.beq_iff`
    * `Tree.valueAt_beq_of_beq`
    * `Tree.WellFormed.beq_iff_valueAt`
    * `Tree.run_canonical`
-/

------------------------------------------------------------
-- Comparing Nodes
------------------------------------------------------------

namespace HierPath

universe u

namespace Tree

variable {V : Type u}
variable [BEq V]

/- Named trees are compared one by one. -/
private theorem sameAll_iff
    (named others : List (String × Tree V)) :
    sameAll named others = true ↔
      List.Forall₂
        (fun a b => a.1 = b.1 ∧ (a.2 == b.2) = true)
        named others := by
  induction named generalizing others with
  | nil =>
      cases others <;> simp [sameAll]
  | cons first rest ih =>
      cases others with
      | nil =>
          simp [sameAll]
      | cons second others =>
          simp only [sameAll, Bool.and_eq_true, beq_iff_eq,
            List.forall₂_cons, ih]
          rfl

/-
  Trees are equal when their tops have one path and equal
  values, and equal children under the same names.
-/
theorem beq_iff
    (tree other : Tree V) :
    (tree == other) = true ↔
      tree.path = other.path
        ∧ (tree.item == other.item) = true
        ∧ List.Forall₂
          (fun a b => a.1 = b.1 ∧ (a.2 == b.2) = true)
          tree.children other.children := by
  cases tree with
  | node path item named =>
      cases other with
      | node place held others =>
          change same (node path item named)
            (node place held others) = true ↔ _
          simp only [same, Bool.and_eq_true, beq_iff_eq,
            sameAll_iff, and_assoc]
          rfl

/- In equal trees all names lead to equal values. -/
theorem valueAt_beq_of_beq
    {tree other : Tree V}
    (hSame : (tree == other) = true)
    (names : List String) :
    (tree.valueAt names == other.valueAt names) = true := by
  induction names generalizing tree other with
  | nil =>
      rw [valueAt_nil, valueAt_nil]
      exact ((beq_iff tree other).mp hSame).2.1
  | cons name rest ih =>
      have hChildren :
          Option.Rel (fun a b => (a == b) = true)
            (tree.child? name) (other.child? name) :=
        Children.rel_find?_of_forall₂
          ((beq_iff tree other).mp hSame).2.2 name
      rw [valueAt_cons, valueAt_cons]
      generalize tree.child? name = child at hChildren ⊢
      generalize other.child? name = twin at hChildren ⊢
      cases hChildren with
      | none => rfl
      | some hChild => exact ih hChild

end Tree

end HierPath

------------------------------------------------------------
-- Equal Values
------------------------------------------------------------

namespace HierPath

universe u

namespace Tree

namespace WellFormed

variable {V : Type u}
variable [BEq V]

omit [BEq V] in
/- A child is there where some names below it have a value. -/
private theorem child?_isSome_iff
    {tree : Tree V}
    (hTree : tree.WellFormed)
    (name : String) :
    (tree.child? name).isSome = true ↔
      ∃ rest, (tree.valueAt (name :: rest)).isSome = true := by
  have hNode := hTree.descend?_isSome_iff [name]
  rw [descend?_cons] at hNode
  simpa [Option.isSome_iff_exists] using hNode

/- Equal values are there or missing together. -/
private theorem isSome_eq_of_beq
    {a b : Option V}
    (hSame : (a == b) = true) :
    a.isSome = b.isSome := by
  cases a <;> cases b <;> simp at hSame ⊢

/-
  Well-formed trees with one path are equal when all names
  lead to equal values.
-/
private theorem beq_of_valueAt
    {tree other : Tree V}
    (hTree : tree.WellFormed)
    (hOther : other.WellFormed)
    (hPath : tree.path = other.path)
    (hValues :
      ∀ names,
        (tree.valueAt names == other.valueAt names) = true) :
    (tree == other) = true := by
  induction tree using induction_on_branches
    generalizing other with
  | step tree ih =>
      rcases (wellFormed_iff tree).mp hTree with
        ⟨hTidy, hChildren⟩
      rcases (wellFormed_iff other).mp hOther with
        ⟨hOtherTidy, hOtherChildren⟩
      apply (beq_iff tree other).mpr
      refine ⟨hPath, by simpa using hValues [], ?_⟩
      apply Children.forall₂_of_rel_find?
        (R := fun a b => (a == b) = true)
        hTidy.sorted hOtherTidy.sorted
      intro name
      change Option.Rel _ (tree.child? name)
        (other.child? name)
      -- A child stands for the values below its name, so
      -- both trees have one or neither has.
      have hBoth :
          (tree.child? name).isSome = true ↔
            (other.child? name).isSome = true := by
        rw [child?_isSome_iff hTree,
          child?_isSome_iff hOther]
        simp only [isSome_eq_of_beq (hValues _)]
      cases hChild : tree.child? name with
      | none =>
          rw [hChild] at hBoth
          rw [Option.not_isSome_iff_eq_none.mp
            (hBoth.not.mp (by simp))]
          exact .none
      | some child =>
          rw [hChild] at hBoth
          rcases Option.isSome_iff_exists.mp
              (hBoth.mp rfl) with ⟨twin, hTwin⟩
          rw [hTwin]
          apply Option.Rel.some
          have hBranch : child ∈ tree.branches :=
            (hTidy.mem_branches_iff child).mpr
              ⟨name, hChild⟩
          apply ih child hBranch (hChildren name child hChild)
            (hOtherChildren name twin hTwin)
          · rw [hTidy.labelled hChild,
              hOtherTidy.labelled hTwin, hPath]
          · intro names
            have hBelow := hValues (name :: names)
            rwa [valueAt_cons, valueAt_cons, hChild,
              hTwin] at hBelow

/-
  Well-formed trees are equal exactly when they have one
  path and all names lead to equal values.
-/
theorem beq_iff_valueAt
    {tree other : Tree V}
    (hTree : tree.WellFormed)
    (hOther : other.WellFormed) :
    (tree == other) = true ↔
      tree.path = other.path ∧
        ∀ names,
          (tree.valueAt names == other.valueAt names) =
            true := by
  constructor
  · intro hSame
    exact ⟨((beq_iff tree other).mp hSame).1,
      valueAt_beq_of_beq hSame⟩
  · intro hParts
    exact beq_of_valueAt hTree hOther hParts.1 hParts.2

end WellFormed

end Tree

end HierPath

------------------------------------------------------------
-- Histories
------------------------------------------------------------

namespace HierPath

universe u

namespace Tree

variable {V : Type u}
variable [BEq V]

/-
  Trees that are built by any runs of changes are equal
  exactly when their tops are one path and all names lead to
  equal values. So writes that end with the same values
  build equal trees, writes at different segments can be
  exchanged, and to write the value that a key has already
  changes nothing.
-/
theorem run_canonical
    [ReflBEq V]
    (root : Path)
    (edits : List (Edit V)) :
    let tree := (ofRoot root).run edits
    (∀ place others,
      let other : Tree V := (ofRoot place).run others
      (tree == other) = true ↔
        root = place ∧
          ∀ names,
            (tree.valueAt names == other.valueAt names) =
              true)
      ∧ (∀ entries others : List (Path × V),
        (∀ names,
          (lastValue entries names ==
            lastValue others names) = true) →
          ((ofRoot root).addAll entries ==
            (ofRoot root).addAll others) = true)
      ∧ (∀ key other value twin,
        key.segments ≠ other.segments →
          (((tree.add key value).tree.add other twin).tree ==
            ((tree.add other twin).tree.add key value).tree) =
              true)
      ∧ (∀ key value held,
        tree.get key = .ok held → (value == held) = true →
          ((tree.add key value).tree == tree) = true) := by
  intro tree
  have hTree : tree.WellFormed := wellFormed_run root edits
  have hWrite (names : List String) (value : V) :
      (tree.write names value).tree.WellFormed :=
    wellFormed_write hTree names value
  refine ⟨?_, ?_, ?_, ?_⟩
  · intro place others other
    rw [hTree.beq_iff_valueAt (wellFormed_run place others),
      path_run, path_run]
  · intro entries others hLast
    have hFirst : ((ofRoot root).addAll entries).WellFormed :=
      wellFormed_run root [.extend entries]
    have hSecond : ((ofRoot root).addAll others).WellFormed :=
      wellFormed_run root [.extend others]
    apply (hFirst.beq_iff_valueAt hSecond).mpr
    constructor
    · exact (path_run root [.extend entries]).trans
        (path_run root [.extend others]).symm
    · intro names
      simpa [valueAt_addAll] using hLast names
  · intro key other value twin hKeys
    apply ((wellFormed_write (hWrite _ _) _ _).beq_iff_valueAt
      (wellFormed_write (hWrite _ _) _ _)).mpr
    constructor
    · simp
    · intro names
      simp only [valueAt_write]
      by_cases hFirst : names = key.segments
      · have hSecond : names ≠ other.segments := by
          rwa [hFirst]
        simp [hFirst, hKeys]
      · simp [hFirst]
  · intro key value held hGet hHeld
    have hValue : tree.valueAt key.segments = some held :=
      (get_eq_ok_iff tree key held).mp hGet
    apply ((hWrite _ _).beq_iff_valueAt hTree).mpr
    constructor
    · exact path_write tree _ value
    · intro names
      rw [valueAt_write]
      by_cases hNames : names = key.segments
      · simp [hNames, hValue, hHeld]
      · simp [hNames]

/-
  A value that was assigned within a subtree can be written
  again, and a key can be written before or after another
  that lies above it.
-/
theorem run_canonical_of_assigned_value :
    let root : Path := ⟨.relative, ["r"]⟩
    let edits : List (Edit Nat) :=
      [.add ⟨.absolute, ["a", "b"]⟩ 1,
        .within ⟨.absolute, ["a"]⟩
          (.assign ⟨.relative, ["b"]⟩ 2)]
    let tree := (ofRoot root).run edits
    let key : Path := ⟨.absolute, ["a", "b"]⟩
    let above : Path := ⟨.relative, ["a"]⟩
    tree.get key = .ok 2
      ∧ ((tree.add key 2).tree == tree) = true
      ∧ key.segments ≠ above.segments
      ∧ (((tree.add key 3).tree.add above 4).tree ==
          ((tree.add above 4).tree.add key 3).tree) =
        true := by
  intro root edits tree key above
  have hGet : tree.get key = .ok 2 := rfl
  have hKeys : key.segments ≠ above.segments := by decide
  rcases run_canonical root edits with
    ⟨_, _, hExchange, hAgain⟩
  exact ⟨hGet, hAgain key 2 2 hGet rfl, hKeys,
    hExchange key above 3 4 hKeys⟩

end Tree

end HierPath
