import HierPath.Proofs.Path.Climbing
import HierPath.Proofs.Path.Joining
import HierPath.Proofs.Path.NormalForm
import HierPath.Proofs.Path.Order
import Mathlib.Data.List.ReduceOption

/-
  The ways up from a path agree.

  There are four of them: asking a climb for one path after
  another, taking the parent again and again, reading `..`
  from the path, and looking for the paths that the path
  starts with. All of them lead through the tops of the path
  down to the root of its anchor and end there. A climb that
  is over keeps its state, so it goes on to have no answer.

  Key definitions include:
    * `Ancestors.requests`
    * `Path.above?`
    * `Path.upward`

  Key theorems include:
    * `Ancestors.requests_eq`
    * `Ancestors.advance_eq_requests`
    * `Path.above?_eq`
    * `Path.requests_ancestors`
    * `Path.child_upward`
    * `Path.ways_up_agree`
-/

------------------------------------------------------------
-- Requests To A Climb
------------------------------------------------------------

namespace HierPath

namespace Ancestors

/-
  The answer to a request for the next path, and the climb
  after it. A climb that is over stays as it is.
-/
def request
    (climb : Ancestors) : Option Path × Ancestors :=
  match climb.next? with
  | none => (none, climb)
  | some (p, after) => (some p, after)

/- The answers to `n` requests, and the climb after them. -/
def requests :
    Nat → Ancestors → List (Option Path) × Ancestors
  | 0, climb => ([], climb)
  | n + 1, climb =>
      let (answer, after) := climb.request
      let (answers, final) := requests n after
      (answer :: answers, final)

/-
  Requests are answered by the tops of the path, each one
  shorter than the one before, as long as any are left, and
  by nothing from then on.
-/
theorem requests_eq
    (n : Nat)
    (climb : Ancestors) :
    climb.requests n =
      ((List.range n).map fun i =>
          if i < climb.left then
            some (climb.path.top (climb.left - (i + 1)))
          else
            none,
        ⟨climb.path, climb.left - n⟩) := by
  induction n generalizing climb with
  | zero =>
      rfl
  | succ n ih =>
      rcases climb with ⟨p, left⟩
      cases left with
      | zero =>
          simp [requests, request, next?, ih,
            List.range_succ_eq_map, Function.comp_def,
            List.map_const']
      | succ left =>
          simp [requests, request, next?, ih,
            List.range_succ_eq_map, Function.comp_def]

/- Steps of a climb yield the answers that are paths. -/
theorem advance_eq_requests
    (n : Nat)
    (climb : Ancestors) :
    climb.advance n =
      ((climb.requests n).1.reduceOption,
        (climb.requests n).2) := by
  induction n generalizing climb with
  | zero =>
      rfl
  | succ n ih =>
      cases hNext : climb.next? with
      | none =>
          have hOver : climb.advance n = ([], climb) := by
            cases n <;> simp [advance, hNext]
          have hStays := ih climb
          rw [hOver, Prod.mk.injEq] at hStays
          simp only [advance, requests, request, hNext,
            List.reduceOption_cons_of_none, ← hStays.1,
            ← hStays.2]
      | some next =>
          simp [advance, requests, request, hNext, ih]

end Ancestors

end HierPath

------------------------------------------------------------
-- Parents Of Parents
------------------------------------------------------------

namespace HierPath

namespace Path

/- The path that is reached by taking the parent `n` times. -/
def above?
    (p : Path) : Nat → Option Path
  | 0 => some p
  | n + 1 => (above? p n).bind parent?

/- The parent of a top is the next shorter one. -/
private theorem parent?_top
    (p : Path)
    {n : Nat}
    (hBound : n < p.depth) :
    (p.top (n + 1)).parent? = some (p.top n) := by
  have hDepth : (p.top (n + 1)).depth = n + 1 := by
    rw [depth] at hBound ⊢
    rw [top, List.length_take, Nat.min_eq_left hBound]
  have hRoot : (p.top (n + 1)).isRoot = false := by
    rw [depth] at hDepth
    rw [isRoot, ← Bool.not_eq_true,
      List.isEmpty_iff_length_eq_zero, hDepth]
    exact Nat.succ_ne_zero n
  rw [parent?, hRoot, hDepth]
  simp [top, List.take_take]

/- The shortest top has no parent. -/
private theorem parent?_top_zero
    (p : Path) :
    (p.top 0).parent? = none := by
  rfl

/- Taking parents leads through the tops to the root. -/
theorem above?_eq
    (p : Path)
    (n : Nat) :
    p.above? n =
      if n ≤ p.depth then
        some (p.top (p.depth - n))
      else
        none := by
  induction n with
  | zero =>
      simp [above?, top, depth]
  | succ n ih =>
      rw [above?, ih]
      rcases Nat.lt_trichotomy n p.depth with
        hBelow | hRoot | hOver
      · have hNext : p.depth - n = p.depth - (n + 1) + 1 := by
          omega
        rw [if_pos hBelow.le, if_pos (Nat.succ_le_of_lt hBelow),
          Option.bind_some, hNext, parent?_top p (by omega)]
      · rw [if_pos hRoot.le, if_neg (by omega),
          Option.bind_some, hRoot, Nat.sub_self,
          parent?_top_zero]
      · rw [if_neg (by omega), if_neg (by omega),
          Option.bind_none]

/- The requests to the climb from a path give its parents. -/
theorem requests_ancestors
    (p : Path)
    (n : Nat) :
    p.ancestors.requests n =
      ((List.range n).map p.above?,
        ⟨p, p.depth + 1 - n⟩) := by
  rw [Ancestors.requests_eq]
  refine Prod.ext (List.map_congr_left fun i _ => ?_) rfl
  simp only [ancestors, above?_eq, Nat.lt_succ_iff,
    Nat.add_sub_add_right]

end Path

end HierPath

------------------------------------------------------------
-- Texts That Climb
------------------------------------------------------------

namespace HierPath

namespace Path

/- The text of so many steps up, separated from each other. -/
def upward
    (n : Nat) : String :=
  "/".intercalate (List.replicate n "..")

/- Steps up are pieces of a text that moves up only. -/
private theorem toList_upward_succ
    (n : Nat) :
    (upward (n + 1)).toList =
      Segment.spelling ".."
        ++ spellSegments (List.replicate n "..") := by
  have hNames := spellSegments_cons ".." (List.replicate n "..")
  rw [← List.replicate_succ] at hNames
  have hDots :
      (List.replicate (n + 1) "..").map Segment.spelling =
        (List.replicate (n + 1) "..").map String.toList := by
    rw [List.map_replicate, List.map_replicate]
    rfl
  rw [upward, String.toList_intercalate, ← hDots]
  exact (List.cons.inj hNames).2.symm

/- The pieces of such a text are steps up. -/
private theorem pieces_upward_succ
    (n : Nat) :
    pieces (upward (n + 1)).toList =
      List.replicate (n + 1) ".." := by
  rw [pieces, toList_upward_succ,
    Pieces.ofText_spelling_append, ← List.replicate_succ,
    List.map_map]
  simp

/-
  Reading steps up from a path leads to the path that its
  parents lead to, and fails where they end.
-/
theorem child_upward
    (p : Path)
    {n : Nat}
    (hSome : 1 ≤ n) :
    p.child (upward n) =
      match p.above? n with
      | some q => .ok q
      | none => .error (.aboveRoot (upward n)) := by
  obtain ⟨n, rfl⟩ := Nat.exists_eq_add_of_le' hSome
  have hChars := toList_upward_succ n
  have hText : upward (n + 1) ≠ "" := by
    intro hEmpty
    rw [hEmpty] at hChars
    cases hChars
  have hPlain : isRooted (upward (n + 1)) = false := by
    rw [isRooted, hChars]
    rfl
  have hClosed :
      Pieces.isOpenAfter false (upward (n + 1)).toList =
        false := by
    rw [hChars, Pieces.isOpenAfter_append,
      Pieces.isOpenAfter_spelling,
      Pieces.isOpenAfter_spellSegments]
  have hMoves :
      (List.replicate (n + 1) "..").filterMap Move.ofPiece =
        List.replicate (n + 1) .up :=
    List.filterMap_replicate_of_some rfl
  rw [child, parseIn_some_eq_resolve p hText hPlain,
    resolve_of_closed _ _ hClosed, pieces_upward_succ,
    hMoves, Move.run_up, above?_eq, List.length_reverse]
  by_cases hBound : n + 1 ≤ p.segments.length
  · rw [depth, if_pos hBound, if_pos hBound]
    simp only [List.drop_reverse, List.reverse_reverse]
    rfl
  · rw [depth, if_neg hBound, if_neg hBound]

end Path

end HierPath

------------------------------------------------------------
-- Agreement
------------------------------------------------------------

namespace HierPath

namespace Path

/- A path is among the answers where it is above the path. -/
private theorem some_mem_requests_iff
    (p q : Path) :
    (∃ n, some q ∈ (p.ancestors.requests n).1) ↔
      p.startsWith q = true := by
  simp only [requests_ancestors, List.mem_map,
    List.mem_range]
  constructor
  · rintro ⟨_, i, _, hAnswer⟩
    rw [above?_eq] at hAnswer
    split at hAnswer
    next =>
      cases hAnswer
      exact startsWith_iff.mpr
        ⟨_, by rw [top, List.take_append_drop]⟩
    next =>
      cases hAnswer
  · intro hAbove
    rcases startsWith_iff.mp hAbove with ⟨rest, rfl⟩
    refine ⟨rest.length + 1, rest.length, by omega, ?_⟩
    rw [above?_eq]
    simp [depth, top]

/-
  However a path is climbed, it is by its parents. Requests
  to a climb are answered by the path and its parents, down
  to the root, and by nothing from then on. At any moment
  the climb knows how many answers are left. The answers are
  what the path starts with, and reading steps up from the
  path leads to them.
-/
theorem ways_up_agree
    (p : Path)
    (k : Nat) :
    let answers := (p.ancestors.requests k).1
    let after := (p.ancestors.requests k).2
    let left := p.depth + 1 - k
    answers = (List.range k).map p.above?
      ∧ p.above? p.depth = some ⟨p.anchor, []⟩
      ∧ (∀ i, p.above? i = none ↔ p.depth < i)
      ∧ after.bounds = (left, left)
      ∧ after.toList.length = left
      ∧ (∀ n, left ≤ n →
        (after.requests n).1.reduceOption = after.toList)
      ∧ (∀ q,
        (∃ n, some q ∈ (p.ancestors.requests n).1) ↔
          p.startsWith q = true)
      ∧ (∀ j, 1 ≤ j →
        (j ≤ p.depth →
          ∃ q, p.above? j = some q
            ∧ p.child (upward j) = .ok q)
        ∧ (p.depth < j →
          p.child (upward j) =
            .error (.aboveRoot (upward j)))) := by
  intro answers after left
  have hAfter : after = ⟨p, left⟩ :=
    congrArg Prod.snd (requests_ancestors p k)
  have hNone : ∀ i, p.above? i = none ↔ p.depth < i := by
    intro i
    simp [above?_eq]
  refine ⟨congrArg Prod.fst (requests_ancestors p k), ?_,
    hNone, by rw [hAfter]; rfl, ?_, ?_,
    some_mem_requests_iff p, ?_⟩
  · simp [above?_eq, top]
  · rw [hAfter, Ancestors.toList, Ancestors.advance_eq]
    simp
  · intro n hBound
    have hYielded :
        (after.advance n).1 =
          (after.requests n).1.reduceOption :=
      congrArg Prod.fst (after.advance_eq_requests n)
    rw [← hYielded, hAfter, Ancestors.toList,
      Ancestors.advance_eq, Ancestors.advance_eq,
      List.take_of_length_le (by simpa using hBound),
      List.take_of_length_le (by simp)]
  · intro j hSome
    rw [child_upward p hSome]
    constructor
    · intro hBound
      refine ⟨_, by rw [above?_eq, if_pos hBound], ?_⟩
      rw [above?_eq, if_pos hBound]
    · intro hOver
      rw [(hNone j).mpr hOver]

/-
  A path of two names is climbed in three answers, one of
  them left after two requests, and not in three steps up.
-/
theorem ways_up_agree_of_two_names :
    let p : Path := ⟨.relative, ["a", "b/c"]⟩
    let after := (p.ancestors.requests 2).2
    (after.requests 3).1.reduceOption = [relativeRoot]
      ∧ p.child "../.." = .ok relativeRoot
      ∧ p.child "../../.." =
        .error (.aboveRoot "../../..") := by
  intro p after
  have hTwo : "../.." = upward 2 := by
    decide +kernel
  have hThree : "../../.." = upward 3 := by
    decide +kernel
  have hSome : p.above? 2 = some relativeRoot := by
    decide
  obtain ⟨_, _, _, _, _, hLeft, _, hSteps⟩ :=
    ways_up_agree p 2
  refine ⟨?_, ?_, ?_⟩
  · rw [hLeft 3 (by decide)]
    decide
  · obtain ⟨q, hAbove, hChild⟩ :=
      (hSteps 2 (by decide)).1 (by decide)
    rw [hSome] at hAbove
    rw [hTwo, hChild, Option.some.inj hAbove]
  · rw [hThree]
    exact (hSteps 3 (by decide)).2 (by decide)

end Path

end HierPath
