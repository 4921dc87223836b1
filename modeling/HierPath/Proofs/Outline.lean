import HierPath.Outline
import HierPath.Proofs.Tree.Likeness

/-
  What outlines tell of a tree.

  The lines of a tree are the line of its top and the lines
  of its branches, one step further in. Where values are
  not shown, a line marks only whether there is one, so
  alike trees have one outline.

  Key theorems include:
    * `Outline.lines_eq`
    * `Tree.Alike.outline_eq`
-/

------------------------------------------------------------
-- Lines
------------------------------------------------------------

namespace HierPath

namespace Outline

/- The lines of named trees are those of each tree. -/
private theorem linesAll_eq
    (showValues : Bool)
    (depth : Nat)
    (named : List (String × Tree Nat)) :
    linesAll showValues depth named =
      (named.map Prod.snd).flatMap
        (lines showValues depth) := by
  induction named with
  | nil =>
      rfl
  | cons entry rest ih =>
      rw [linesAll, ih, List.map_cons, List.flatMap_cons]

/- A tree has the line of its top and of its branches. -/
theorem lines_eq
    (showValues : Bool)
    (depth : Nat)
    (tree : Tree Nat) :
    lines showValues depth tree =
      line showValues depth tree.path tree.item
        :: tree.branches.flatMap
          (lines showValues (depth + 1)) := by
  cases tree with
  | node path item named =>
      rw [lines, linesAll_eq]
      rfl

/- A line that shows no value marks that there is one. -/
private theorem line_false_eq
    {item held : Option Nat}
    (hItem : item.isSome = held.isSome)
    (depth : Nat)
    (path : Path) :
    line false depth path item =
      line false depth path held := by
  have hMark : mark item = mark held := by
    cases item <;> cases held <;> simp at hItem <;> rfl
  rw [line, line, hMark]
  rfl

end Outline

namespace Tree

namespace Alike

variable {tree other : Tree Nat}

/- Alike trees have the same lines without values. -/
theorem lines_eq
    (hAlike : tree.Alike other)
    (depth : Nat) :
    Outline.lines false depth tree =
      Outline.lines false depth other := by
  -- The depth changes on the way down, so the lines at all
  -- depths are compared at once.
  suffices hLines :
      (fun depth => Outline.lines false depth tree) =
        fun depth => Outline.lines false depth other from
    congrFun hLines depth
  apply hAlike.eq_of_step
    (f := fun tree depth => Outline.lines false depth tree)
  intro tree other hPath hItem hBranches
  funext depth
  have hBelow :
      tree.branches.map (Outline.lines false (depth + 1)) =
        other.branches.map
          (Outline.lines false (depth + 1)) := by
    have hDeeper :=
      congrArg (List.map fun lines => lines (depth + 1))
        hBranches
    rwa [List.map_map, List.map_map] at hDeeper
  rw [Outline.lines_eq, Outline.lines_eq, hPath,
    Outline.line_false_eq hItem, List.flatMap_def,
    List.flatMap_def, hBelow]

/- Alike trees have the same outline without values. -/
theorem outline_eq
    (hAlike : tree.Alike other) :
    tree.outline false = other.outline false := by
  rw [outline, outline, hAlike.lines_eq]

end Alike

end Tree

end HierPath
