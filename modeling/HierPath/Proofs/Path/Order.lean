import HierPath.Path.Basic
import HierPath.Proofs.Text.Comparing

/-
  Laws of the order of paths.

  The order of paths is linear. Two paths with a part in
  common compare as what they have after it, so a path
  comes before everything below it, and the paths below two
  names of one path compare as the names do.

  Key theorems include:
    * `Path.startsWith_iff`
    * `Path.compare_of_append`
    * `Path.compare_of_startsWith`
    * `Path.compare_below`
    * `Path.nodup_of_ascending`
    * `Path.eq_of_ascending`
    * `Path.exists_names_below`
-/

------------------------------------------------------------
-- A Linear Order
------------------------------------------------------------

namespace HierPath

namespace Anchor

instance : Std.TransOrd Anchor where
  eq_swap := by
    intro a b
    cases a <;> cases b <;> rfl
  isLE_trans := by
    intro a b c
    cases a <;> cases b <;> cases c <;> decide

instance : Std.LawfulEqOrd Anchor where
  eq_of_compare := by
    intro a b
    cases a <;> cases b <;> decide

end Anchor

namespace Path

/- Anchors decide first, and segments after them. -/
instance : Std.TransOrd Path :=
  inferInstanceAs (Std.TransCmp
    (compareLex (compareOn anchor) (compareOn segments)))

instance : Std.LawfulEqOrd Path where
  eq_of_compare := by
    intro p q hCompare
    rcases p with ⟨anchor, names⟩
    rcases q with ⟨other, others⟩
    rcases Ordering.then_eq_eq.mp hCompare with
      ⟨hAnchors, hNames⟩
    have hAnchor : anchor = other :=
      Std.LawfulEqOrd.eq_of_compare hAnchors
    have hSegments : names = others :=
      Std.LawfulEqOrd.eq_of_compare hNames
    rw [hAnchor, hSegments]

end Path

end HierPath

------------------------------------------------------------
-- Paths With A Part In Common
------------------------------------------------------------

namespace HierPath

namespace Path

/- A path starts with those that it goes on from. -/
theorem startsWith_iff
    {p q : Path} :
    p.startsWith q = true ↔
      ∃ rest, p = ⟨q.anchor, q.segments ++ rest⟩ := by
  rcases p with ⟨anchor, names⟩
  simp only [startsWith, Bool.and_eq_true,
    decide_eq_true_eq, List.isPrefixOf_iff_prefix, mk.injEq]
  rw [exists_and_left]
  exact and_congr_right fun _ => exists_congr fun _ => eq_comm

/- Paths with a part in common compare as what is left. -/
theorem compare_of_append
    (anchor : Anchor)
    (base names others : List String) :
    compare (⟨anchor, base ++ names⟩ : Path)
        ⟨anchor, base ++ others⟩ =
      compare names others := by
  have hAnchors : compare anchor anchor = .eq :=
    Std.ReflCmp.compare_self
  change (compare anchor anchor).then
    (compare (base ++ names) (base ++ others)) = _
  rw [hAnchors, Ordering.eq_then, compare_append_left]

/- A path comes before everything that lies below it. -/
theorem compare_of_startsWith
    {p q : Path}
    (hBelow : q.startsWith p = true)
    (hOther : p ≠ q) :
    compare p q = .lt := by
  rcases startsWith_iff.mp hBelow with ⟨rest, rfl⟩
  rcases p with ⟨anchor, names⟩
  have hCompare := compare_of_append anchor names [] rest
  rw [List.append_nil] at hCompare
  rw [hCompare]
  cases rest with
  | nil =>
      simp at hOther
  | cons name rest =>
      exact List.compare_nil_cons

/- Below two names of one path, the names decide. -/
theorem compare_below
    (anchor : Anchor)
    (base : List String)
    {name other : String}
    (hNames : compare name other = .lt)
    (rest others : List String) :
    compare (⟨anchor, base ++ name :: rest⟩ : Path)
        ⟨anchor, base ++ other :: others⟩ =
      .lt := by
  rw [compare_of_append, List.compare_cons_cons, hNames]
  rfl

end Path

end HierPath

------------------------------------------------------------
-- Ascending Lists
------------------------------------------------------------

namespace HierPath

universe u

namespace Path

variable {α : Type u}
variable {pathOf : α → Path}
variable {items others : List α}

/- Things in ascending order of their paths do not repeat. -/
theorem nodup_of_ascending
    (hAscending :
      items.Pairwise fun first second =>
        compare (pathOf first) (pathOf second) = .lt) :
    items.Nodup := by
  refine hAscending.imp ?_
  rintro first second hCompare rfl
  simp at hCompare

/-
  Lists of the same things in ascending order of their paths
  are equal.
-/
theorem eq_of_ascending
    (hItems :
      items.Pairwise fun first second =>
        compare (pathOf first) (pathOf second) = .lt)
    (hOthers :
      others.Pairwise fun first second =>
        compare (pathOf first) (pathOf second) = .lt)
    (hSame : ∀ item, item ∈ items ↔ item ∈ others) :
    items = others := by
  refine List.Perm.eq_of_pairwise ?_ hItems hOthers ?_
  · intro first second _ _ hLess hMore
    rw [Std.OrientedCmp.gt_of_lt hLess] at hMore
    cases hMore
  · rw [List.perm_ext_iff_of_nodup
      (nodup_of_ascending hItems)
      (nodup_of_ascending hOthers)]
    exact hSame

/-
  Ascending paths below a root are told by the names after
  it, and these do not repeat.
-/
theorem exists_names_below
    {root : Path}
    {paths : List Path}
    (hAscending :
      paths.Pairwise fun first second =>
        compare first second = .lt)
    (hBelow :
      ∀ p ∈ paths, ∃ names,
        p = ⟨root.anchor, root.segments ++ names⟩) :
    ∃ distinct : List (List String),
      distinct.Nodup
        ∧ (∀ names, names ∈ distinct ↔
          (⟨root.anchor, root.segments ++ names⟩ : Path) ∈
            paths)
        ∧ distinct.length = paths.length := by
  have hPath :
      ∀ p ∈ paths,
        (⟨root.anchor, root.segments
          ++ p.segments.drop root.depth⟩ : Path) = p := by
    intro p hp
    rcases hBelow p hp with ⟨names, rfl⟩
    simp [depth]
  refine ⟨paths.map fun p => p.segments.drop root.depth,
    ?_, ?_, List.length_map _⟩
  · unfold List.Nodup
    rw [List.pairwise_map]
    refine hAscending.imp_of_mem ?_
    intro p q hp hq hCompare hSame
    rw [← hPath p hp, ← hPath q hq, hSame] at hCompare
    simp at hCompare
  · intro names
    rw [List.mem_map]
    constructor
    · intro hNames
      rcases hNames with ⟨p, hp, rfl⟩
      rwa [hPath p hp]
    · intro hListed
      exact ⟨_, hListed, List.drop_left⟩

end Path

end HierPath
