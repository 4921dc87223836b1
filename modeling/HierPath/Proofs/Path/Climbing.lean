import HierPath.Path.Ancestors

/-
  The paths on the way up.

  A climb yields the tops of its path, from the longest that
  is left down to the root, and the number of paths left is
  all that a step changes. The paths above a path are thus
  its tops of all lengths up to its own.

  Key theorems include:
    * `Ancestors.advance_eq`
    * `Path.mem_toList_ancestors_iff`
-/

------------------------------------------------------------
-- Steps Of A Climb
------------------------------------------------------------

namespace HierPath

namespace Ancestors

/-
  So many steps yield the next tops of the path, each one
  shorter than the one before, as far as there are any.
-/
theorem advance_eq
    (n : Nat)
    (climb : Ancestors) :
    climb.advance n =
      (((List.range climb.left).reverse.take n).map
          climb.path.top,
        ⟨climb.path, climb.left - n⟩) := by
  induction n generalizing climb with
  | zero =>
      rfl
  | succ n ih =>
      rcases climb with ⟨p, left⟩
      cases left with
      | zero =>
          simp [advance, next?]
      | succ left =>
          simp only [advance, next?, ih, List.range_succ,
            List.reverse_concat, List.take_succ_cons,
            List.map_cons, Nat.add_sub_add_right]

end Ancestors

namespace Path

/- The paths above a path are its tops. -/
theorem mem_toList_ancestors_iff
    (p q : Path) :
    q ∈ p.ancestors.toList ↔ ∃ n ≤ p.depth, q = p.top n := by
  have hAll :
      p.ancestors.toList =
        (List.range (p.depth + 1)).reverse.map p.top := by
    rw [Ancestors.toList, Ancestors.advance_eq,
      List.take_of_length_le (by simp)]
    rfl
  rw [hAll, List.mem_map]
  simp only [List.mem_reverse, List.mem_range,
    Nat.lt_succ_iff, eq_comm]

end Path

end HierPath
