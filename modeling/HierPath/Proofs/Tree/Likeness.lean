import HierPath.Proofs.Tree.Counting
import HierPath.Proofs.Tree.Equality

/-
  Trees that are alike: they have the same nodes, and values
  at the same nodes, whatever these values are.

  Trees are alike when they are equal with all values taken
  for the same, so what is known of equal trees carries
  over: well-formed trees with one top are alike exactly
  when they have the same keys. What looks at a value no
  closer than to see whether there is one cannot tell alike
  trees apart.

  Key definitions include:
    * `Tree.Alike`

  Key theorems include:
    * `Tree.alike_iff`
    * `Tree.Alike.eq_of_step`
    * `Tree.Alike.nodeCount_eq`
    * `Tree.WellFormed.alike_iff_paths`
-/

------------------------------------------------------------
-- Alike Trees
------------------------------------------------------------

namespace HierPath

universe u v

namespace Tree

variable {V : Type u}

/- The comparison that takes all values for the same. -/
@[reducible] def anyValue
    (V : Type u) : BEq V :=
  ⟨fun _ _ => true⟩

/- The trees have the same nodes with and without values. -/
def Alike
    (tree other : Tree V) : Prop :=
  @same V (anyValue V) tree other = true

/- Values are taken for the same unless one is missing. -/
private theorem beq_anyValue_iff
    (a b : Option V) :
    @BEq.beq _ (@Option.instBEq V (anyValue V)) a b = true ↔
      a.isSome = b.isSome := by
  have hSame (x y : V) :
      @BEq.beq V (anyValue V) x y = true := rfl
  cases a <;> cases b <;> simp [hSame]

/- Trees are alike from the top down. -/
theorem alike_iff
    (tree other : Tree V) :
    tree.Alike other ↔
      tree.path = other.path
        ∧ tree.item.isSome = other.item.isSome
        ∧ List.Forall₂
          (fun a b => a.1 = b.1 ∧ a.2.Alike b.2)
          tree.children other.children := by
  have hSame := @beq_iff V (anyValue V) tree other
  rw [beq_anyValue_iff] at hSame
  exact hSame

/- The branches of alike trees are alike, one by one. -/
private theorem Alike.branches
    {tree other : Tree V}
    (hAlike : tree.Alike other) :
    List.Forall₂ Alike tree.branches other.branches := by
  have hChildren := ((alike_iff tree other).mp hAlike).2.2
  apply List.forall₂_map_left_iff.mpr
  apply List.forall₂_map_right_iff.mpr
  exact hChildren.imp fun _ _ hNamed => hNamed.2

/-
  What depends on the path of a node, on whether it holds a
  value and on what its branches give is the same for alike
  trees.
-/
theorem Alike.eq_of_step
    {β : Type v}
    {f : Tree V → β}
    (hStep :
      ∀ tree other : Tree V,
        tree.path = other.path →
          tree.item.isSome = other.item.isSome →
            tree.branches.map f = other.branches.map f →
              f tree = f other)
    {tree other : Tree V}
    (hAlike : tree.Alike other) :
    f tree = f other := by
  induction tree using induction_on_branches
    generalizing other with
  | step tree ih =>
      rcases (alike_iff tree other).mp hAlike with
        ⟨hPath, hItem, _⟩
      apply hStep tree other hPath hItem
      have hBelow :
          List.Forall₂ (fun a b => f a = f b)
            tree.branches other.branches := by
        have hBoth := (List.forall₂_and_left _ _).mpr
          ⟨fun a hBranch => @ih a hBranch, hAlike.branches⟩
        exact hBoth.imp fun _ _ hPair => hPair.1 hPair.2
      have hEqual :
          List.Forall₂ Eq (tree.branches.map f)
            (other.branches.map f) := by
        apply List.forall₂_map_left_iff.mpr
        exact List.forall₂_map_right_iff.mpr hBelow
      rwa [List.forall₂_eq_eq_eq] at hEqual

/- Alike trees have the same number of nodes. -/
theorem Alike.nodeCount_eq
    {tree other : Tree V}
    (hAlike : tree.Alike other) :
    tree.nodeCount = other.nodeCount := by
  apply hAlike.eq_of_step
  intro tree other _ _ hBranches
  rw [nodeCount_eq_sum, nodeCount_eq_sum, hBranches]

end Tree

end HierPath

------------------------------------------------------------
-- Keys Of Alike Trees
------------------------------------------------------------

namespace HierPath

universe u

namespace Tree

namespace WellFormed

variable {V : Type u}
variable {tree other : Tree V}

/-
  Well-formed trees are alike exactly when they have one top
  and the same keys.
-/
theorem alike_iff_paths
    (hTree : tree.WellFormed)
    (hOther : other.WellFormed) :
    tree.Alike other ↔
      tree.path = other.path ∧ tree.paths = other.paths := by
  have hValues := @beq_iff_valueAt V (anyValue V) tree other
    hTree hOther
  simp only [beq_anyValue_iff] at hValues
  refine hValues.trans (and_congr_right fun hPath => ?_)
  constructor
  · intro hSome
    apply Path.eq_of_ascending hTree.pairwise_paths
      hOther.pairwise_paths
    intro key
    simp only [hTree.mem_paths_iff, hOther.mem_paths_iff,
      hPath, hSome]
  · intro hKeys names
    apply Bool.eq_iff_iff.mpr
    rw [← hTree.mem_paths_below_iff,
      ← hOther.mem_paths_below_iff, hPath, hKeys]

end WellFormed

end Tree

end HierPath
