import HierPath.Proofs.Path.Order

/-
  The paths that a path starts with.

  A path starts with another one exactly when it is that one
  joined with some path, and of the paths to join with only
  one is relative. This is the way down from the one to the
  other, so taking it off undoes joining.

  Starting with a path is a partial order, and the paths
  that start with one path have no others between them in
  the order of paths. In an ascending list they stand side
  by side.

  Key theorems include:
    * `Path.relativeTo?_eq_some_iff`
    * `Path.relativeTo?_eq_none_iff`
    * `Path.startsWith_trans`
    * `Path.startsWith_antisymm`
    * `Path.startsWith_of_between`
    * `Path.filter_startsWith_infix`
    * `Path.ascending_sort`
    * `Path.prefixes_undo_joins`
-/

------------------------------------------------------------
-- Ways Down
------------------------------------------------------------

namespace HierPath

namespace Path

variable {a p q r x : Path}

/- The way down is what a path is joined with. -/
theorem relativeTo?_eq_some_iff :
    a.relativeTo? p = some r ↔
      r.isRelative = true ∧ p.join r = a := by
  rcases r with ⟨anchor, names⟩
  simp only [isRelative, decide_eq_true_eq, join]
  constructor
  · intro hWay
    unfold relativeTo? at hWay
    split at hWay
    next hBelow =>
      rcases startsWith_iff.mp hBelow with ⟨rest, rfl⟩
      cases hWay
      simp [depth]
    next =>
      cases hWay
  · rintro ⟨rfl, rfl⟩
    have hBelow :
        startsWith ⟨p.anchor, p.segments ++ names⟩ p =
          true :=
      startsWith_iff.mpr ⟨names, rfl⟩
    rw [relativeTo?, if_pos hBelow]
    simp [depth]

/- Without a way down, nothing can be joined to get there. -/
theorem relativeTo?_eq_none_iff :
    a.relativeTo? p = none ↔ ∀ r, p.join r ≠ a := by
  have hBelow :
      a.startsWith p = true ↔ ∃ r, p.join r = a := by
    rw [startsWith_iff]
    constructor
    · rintro ⟨rest, rfl⟩
      exact ⟨⟨.relative, rest⟩, rfl⟩
    · rintro ⟨r, rfl⟩
      exact ⟨r.segments, rfl⟩
  rw [relativeTo?, ite_eq_right_iff, ← not_exists, ← hBelow]
  simp

end Path

end HierPath

------------------------------------------------------------
-- A Partial Order
------------------------------------------------------------

namespace HierPath

namespace Path

variable {a p x : Path}

/- A path starts with itself. -/
theorem startsWith_refl
    (p : Path) :
    p.startsWith p = true :=
  startsWith_iff.mpr ⟨[], by simp⟩

/- A path starts with what its beginnings start with. -/
theorem startsWith_trans
    (hFirst : a.startsWith x = true)
    (hSecond : x.startsWith p = true) :
    a.startsWith p = true := by
  rcases startsWith_iff.mp hSecond with ⟨middle, rfl⟩
  rcases startsWith_iff.mp hFirst with ⟨rest, rfl⟩
  exact startsWith_iff.mpr
    ⟨middle ++ rest, by rw [List.append_assoc]⟩

/- Paths that start with each other are the same. -/
theorem startsWith_antisymm
    (hFirst : a.startsWith p = true)
    (hSecond : p.startsWith a = true) :
    a = p := by
  rcases startsWith_iff.mp hFirst with ⟨rest, rfl⟩
  rcases startsWith_iff.mp hSecond with ⟨more, hSame⟩
  have hSegments := congrArg segments hSame
  rw [List.append_assoc, List.self_eq_append_right,
    List.append_eq_nil_iff] at hSegments
  rw [hSegments.1, List.append_nil]

end Path

end HierPath

------------------------------------------------------------
-- Intervals
------------------------------------------------------------

namespace HierPath

namespace Path

variable {a p x : Path}

/-
  A path between another path and what starts with that one
  starts with it too.
-/
theorem startsWith_of_between
    (hLow : p.le x = true)
    (hHigh : x.le a = true)
    (hBelow : a.startsWith p = true) :
    x.startsWith p = true := by
  rcases startsWith_iff.mp hBelow with ⟨rest, rfl⟩
  rcases p with ⟨anchor, names⟩
  rcases x with ⟨other, others⟩
  have hFirst :
      ((compare anchor other).then
        (compare names others)).isLE = true := hLow
  have hSecond :
      ((compare other anchor).then
        (compare others (names ++ rest))).isLE = true :=
    hHigh
  have hEq : compare anchor other = .eq :=
    Std.OrientedCmp.isLE_antisymm
      (Ordering.isLE_left_of_isLE_then hFirst)
      (Ordering.isLE_left_of_isLE_then hSecond)
  have hAnchor : anchor = other :=
    Std.LawfulEqOrd.eq_of_compare hEq
  subst hAnchor
  rw [hEq, Ordering.eq_then] at hFirst hSecond
  rcases prefix_of_between hFirst hSecond with
    ⟨more, rfl⟩
  exact startsWith_iff.mpr ⟨more, rfl⟩

/- A path comes no later than what starts with it. -/
private theorem le_of_startsWith
    (hBelow : x.startsWith p = true) :
    p.le x = true := by
  by_cases hSame : p = x
  · rw [le, hSame]
    exact Std.ReflCmp.isLE_rfl
  · rw [le, compare_of_startsWith hBelow hSame]
    rfl

/- No path of a list comes before one that stands further up. -/
def Ascending
    (paths : List Path) : Prop :=
  paths.Pairwise fun first second =>
    first.le second = true

/- Sorting puts paths in ascending order. -/
theorem ascending_sort
    (paths : List Path) :
    Ascending (sort paths) := by
  refine List.pairwise_mergeSort ?_ ?_ paths
  · intro first second third
    exact Std.TransCmp.isLE_trans
  · intro first second
    have hTurned :
        compare second first = (compare first second).swap :=
      Std.OrientedCmp.eq_swap
    rw [le, le, hTurned]
    cases compare first second <;> rfl

/-
  Once an ascending list has come to the paths that start
  with `p`, they go on until there are no more of them.
-/
private theorem filter_startsWith_prefix
    {paths : List Path}
    (hAscending : Ascending (x :: paths))
    (hBelow : x.startsWith p = true) :
    paths.filter (·.startsWith p) <+: paths := by
  induction paths generalizing x with
  | nil =>
      exact List.prefix_rfl
  | cons next rest ih =>
      rcases List.pairwise_cons.mp hAscending with
        ⟨hFirst, hRest⟩
      cases hNext : next.startsWith p with
      | true =>
          simp only [List.filter_cons, hNext, if_true]
          exact List.cons_prefix_cons.mpr
            ⟨rfl, ih hRest hNext⟩
      | false =>
          -- A later one would have this one before it.
          have hLow : p.le next = true :=
            Std.TransCmp.isLE_trans (le_of_startsWith hBelow)
              (hFirst next List.mem_cons_self)
          have hNone :
              (next :: rest).filter (·.startsWith p) = [] := by
            rw [List.filter_eq_nil_iff]
            intro later hLater hOther
            have hHigh : next.le later = true := by
              rcases List.mem_cons.mp hLater with rfl | hLater
              · exact Std.ReflCmp.isLE_rfl
              · exact List.rel_of_pairwise_cons hRest hLater
            rw [startsWith_of_between hLow hHigh hOther]
              at hNext
            cases hNext
          rw [hNone]
          exact List.nil_prefix

/-
  The paths that start with `p` stand side by side in an
  ascending list.
-/
theorem filter_startsWith_infix
    (p : Path)
    {paths : List Path}
    (hAscending : Ascending paths) :
    paths.filter (·.startsWith p) <:+: paths := by
  induction paths with
  | nil =>
      exact List.infix_rfl
  | cons first rest ih =>
      cases hFirst : first.startsWith p with
      | true =>
          have hPrefix :=
            filter_startsWith_prefix hAscending hFirst
          simp only [List.filter_cons, hFirst, if_true]
          exact (List.cons_prefix_cons.mpr
            ⟨rfl, hPrefix⟩).isInfix
      | false =>
          rw [List.filter_cons_of_neg (by simp [hFirst])]
          exact (ih hAscending.of_cons).trans
            (List.suffix_cons first rest).isInfix

/-
  What is taken off a path is the one relative path to join
  the rest with, and nothing can be taken off where nothing
  can be joined. Starting with a path is a partial order.
  The paths that start with one path are an interval of the
  order of paths, so they stand side by side in each
  ascending list, however it was sorted.
-/
theorem prefixes_undo_joins
    (a p : Path) :
    (∀ r, a.relativeTo? p = some r ↔
        r.isRelative = true ∧ p.join r = a)
      ∧ (a.relativeTo? p = none ↔ ∀ r, p.join r ≠ a)
      ∧ a.startsWith a = true
      ∧ (∀ x, a.startsWith x = true →
        x.startsWith p = true → a.startsWith p = true)
      ∧ (a.startsWith p = true →
        p.startsWith a = true → a = p)
      ∧ (∀ x, p.le x = true → x.le a = true →
        a.startsWith p = true → x.startsWith p = true)
      ∧ (∀ paths, Ascending paths →
        paths.filter (·.startsWith p) <:+: paths)
      ∧ (∀ paths, Ascending (sort paths)) := by
  refine ⟨fun r => relativeTo?_eq_some_iff,
    relativeTo?_eq_none_iff, startsWith_refl a, ?_,
    startsWith_antisymm, ?_, ?_, ascending_sort⟩
  · intro x
    exact startsWith_trans
  · intro x
    exact startsWith_of_between
  · intro paths
    exact filter_startsWith_infix p

/-
  A path is taken off one with a separator in its last name,
  and what starts with it comes before a longer first name.
-/
theorem prefixes_undo_joins_of_longer_name :
    let p : Path := ⟨.absolute, ["a"]⟩
    let x : Path := ⟨.absolute, ["a", "b"]⟩
    let a : Path := ⟨.absolute, ["a", "c/d"]⟩
    let other : Path := ⟨.absolute, ["a b"]⟩
    a.relativeTo? p = some ⟨.relative, ["c/d"]⟩
      ∧ a.startsWith root = true
      ∧ x.startsWith p = true
      ∧ [p, x, a] <:+: [root, p, x, a, other] := by
  intro p x a other
  obtain ⟨hWay, _, _, _, _, hBetween, hBlock, _⟩ :=
    prefixes_undo_joins a p
  obtain ⟨_, _, _, hLonger, _⟩ := prefixes_undo_joins a root
  have hAscending : Ascending [root, p, x, a, other] := by
    unfold Ascending
    decide +kernel
  have hThree :
      [root, p, x, a, other].filter (·.startsWith p) =
        [p, x, a] := by
    decide
  refine ⟨(hWay _).mpr ⟨rfl, rfl⟩, ?_, ?_, ?_⟩
  · exact hLonger p (by decide) (by decide)
  · exact hBetween x (by decide +kernel)
      (by decide +kernel) (by decide)
  · rw [← hThree]
    exact hBlock _ hAscending

end Path

end HierPath
