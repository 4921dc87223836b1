import HierPath.Path.Parse
import Mathlib.Data.List.TakeDrop
import Mathlib.Logic.Relation

/-
  What the pieces of a written path do to the names of the
  path that is being read.

  A piece is a step up, a step down to a name, or nothing.
  Settling the pieces one after another is compared with
  two views that know no stack: how many steps go up and
  down in the pieces up to some place, and what is left
  when every step up is cancelled against the step down
  right before it.

  Key definitions include:
    * `Move`
    * `Move.ofPiece`
    * `Move.apply`
    * `Move.Overshoots`
    * `Move.Cancels`

  Key theorems include:
    * `Move.foldlM_settle`
    * `Move.run_eq_none_iff`
    * `Move.cancels_of_run`
    * `Move.run_eq_of_cancels`
-/

------------------------------------------------------------
-- Moves
------------------------------------------------------------

namespace HierPath

/- A step that a piece of a written path stands for. -/
inductive Move where
  | up
  | down (name : String)
deriving DecidableEq

namespace Move

/- The step of a piece; the empty piece and `.` have none. -/
def ofPiece
    (piece : String) : Option Move :=
  if piece = ".." then
    some .up
  else if Segment.isName piece then
    some (.down piece)
  else
    none

/- Take a step from names that are kept deepest first. -/
def apply : List String → Move → Option (List String)
  | names, .down name => some (name :: names)
  | [], .up => none
  | _ :: above, .up => some above

/- Take steps one after another. -/
def run
    (names : List String)
    (moves : List Move) : Option (List String) :=
  moves.foldlM apply names

/-
  In the pieces up to some place, more steps go up than
  there are names and steps down to take them from.
-/
def Overshoots
    (depth : Nat)
    (pieces : List String) : Prop :=
  ∃ i ≤ pieces.length,
    depth + (pieces.take i).countP Segment.isName <
      (pieces.take i).count ".."

/-
  A step up and the step down right before it are left out.
-/
inductive Cancels : List Move → List Move → Prop
  | pair
      (before : List Move)
      (name : String)
      (after : List Move) :
      Cancels (before ++ .down name :: .up :: after)
        (before ++ after)

end Move

end HierPath

------------------------------------------------------------
-- Settling As Moving
------------------------------------------------------------

namespace HierPath

namespace Move

/- A piece is settled by taking its step. -/
theorem settle_eq
    (names : List String)
    (piece : List Char) :
    Path.settle names piece =
      (ofPiece (String.ofList piece)).elim (some names)
        (apply names) := by
  unfold Path.settle
  split
  next =>
    rfl
  next =>
    rfl
  next =>
    cases names <;> rfl
  next hEmpty hDot hDots =>
    have hUp : String.ofList piece ≠ ".." := by
      simpa [← String.toList_inj] using hDots
    have hName :
        Segment.isName (String.ofList piece) = true := by
      simpa [Segment.isName, ← String.toList_inj]
        using ⟨⟨hEmpty, hDot⟩, hDots⟩
    simp [ofPiece, hUp, hName, apply]

/- Pieces are settled by taking all their steps. -/
theorem foldlM_settle
    (names : List String)
    (pieces : List (List Char)) :
    pieces.foldlM Path.settle names =
      run names
        ((pieces.map String.ofList).filterMap ofPiece) := by
  induction pieces generalizing names with
  | nil =>
      rfl
  | cons piece rest ih =>
      rw [List.foldlM_cons, settle_eq, List.map_cons,
        List.filterMap_cons]
      cases ofPiece (String.ofList piece) with
      | none =>
          exact ih names
      | some move =>
          simp only [Option.elim_some, run, List.foldlM_cons]
          cases apply names move with
          | none => rfl
          | some names => exact ih names

/- Steps in two parts are taken part by part. -/
theorem run_append
    (names : List String)
    (moves others : List Move) :
    run names (moves ++ others) =
      (run names moves).bind (run · others) := by
  simp [run, List.foldlM_append]

/- Steps down to names add the names, deepest first. -/
theorem run_down
    (names below : List String) :
    run names (below.map .down) =
      some (below.reverse ++ names) := by
  induction below generalizing names with
  | nil =>
      rfl
  | cons name below ih =>
      rw [List.map_cons, run, List.foldlM_cons]
      simpa [apply, run] using ih (name :: names)

/- Steps up take as many names off, deepest first. -/
theorem run_up
    (names : List String)
    (n : Nat) :
    run names (List.replicate n .up) =
      if n ≤ names.length then
        some (names.drop n)
      else
        none := by
  induction n generalizing names with
  | zero =>
      rfl
  | succ n ih =>
      rw [List.replicate_succ, run, List.foldlM_cons]
      cases names with
      | nil =>
          simp [apply]
      | cons name above =>
          simpa [apply, run] using ih above

/- Names that can be segments are steps down to them. -/
theorem filterMap_ofPiece
    {names : List String}
    (hNames : ∀ name ∈ names, Segment.isName name = true) :
    names.filterMap ofPiece = names.map .down := by
  induction names with
  | nil =>
      rfl
  | cons name names ih =>
      have hName := hNames name (by simp)
      have hUp : name ≠ ".." := by
        rintro rfl
        simp [Segment.isName] at hName
      rw [List.filterMap_cons, ih fun other hOther =>
        hNames other (List.mem_cons_of_mem name hOther)]
      simp [ofPiece, hUp, hName]

end Move

end HierPath

------------------------------------------------------------
-- Steps Above The Start
------------------------------------------------------------

namespace HierPath

namespace Move

/- A piece in front moves the start. -/
private theorem overshoots_cons
    (depth : Nat)
    (piece : String)
    (rest : List String) :
    Overshoots depth (piece :: rest) ↔
      ∃ i ≤ rest.length,
        depth + (rest.take i).countP Segment.isName
            + (if Segment.isName piece then 1 else 0) <
          (rest.take i).count ".."
            + (if piece = ".." then 1 else 0) := by
  constructor
  · intro hClimbs
    rcases hClimbs with ⟨i, hBound, hCount⟩
    cases i with
    | zero =>
        simp at hCount
    | succ i =>
        refine ⟨i, by simpa using hBound, ?_⟩
        simpa [List.countP_cons, List.count_cons, Nat.add_assoc]
          using hCount
  · intro hClimbs
    rcases hClimbs with ⟨i, hBound, hCount⟩
    refine ⟨i + 1, by simpa using hBound, ?_⟩
    simpa [List.countP_cons, List.count_cons, Nat.add_assoc]
      using hCount

/-
  The steps of pieces cannot all be taken exactly when some
  piece climbs above the start.
-/
theorem run_eq_none_iff
    (names pieces : List String) :
    run names (pieces.filterMap ofPiece) = none ↔
      Overshoots names.length pieces := by
  induction pieces generalizing names with
  | nil =>
      simp [run, Overshoots]
  | cons piece rest ih =>
      rw [overshoots_cons, List.filterMap_cons]
      by_cases hUp : piece = ".."
      · subst piece
        have hName : Segment.isName ".." = false := rfl
        simp only [ofPiece, if_true, hName,
          Bool.false_eq_true, if_false, run,
          List.foldlM_cons]
        cases names with
        | nil =>
            have hFirst :
                ∃ i ≤ rest.length,
                  (rest.take i).countP Segment.isName <
                    (rest.take i).count ".." + 1 :=
              ⟨0, Nat.zero_le _, by simp⟩
            simpa [apply] using hFirst
        | cons name above =>
            -- The step up takes one name off both sides.
            refine (ih above).trans (exists_congr fun i =>
              and_congr_right fun _ => ?_)
            simp only [List.length_cons]
            omega
      · cases hName : Segment.isName piece with
        | true =>
            simp only [ofPiece, hUp, hName, if_true,
              if_false, run, List.foldlM_cons]
            refine (ih (piece :: names)).trans
              (exists_congr fun i =>
                and_congr_right fun _ => ?_)
            simp only [List.length_cons]
            omega
        | false =>
            simp only [ofPiece, hUp, hName,
              Bool.false_eq_true, if_false, Nat.add_zero]
            exact ih names

end Move

end HierPath

------------------------------------------------------------
-- Cancelled Steps
------------------------------------------------------------

namespace HierPath

namespace Move

/- Cancelled steps lead nowhere. -/
private theorem run_eq_of_cancels_one
    {moves others : List Move}
    (hCancels : Cancels moves others)
    (names : List String) :
    run names moves = run names others := by
  cases hCancels with
  | pair before name after =>
      rw [run_append, run_append]
      cases run names before <;> rfl

/- Steps lead where they do when some are cancelled. -/
theorem run_eq_of_cancels
    {moves others : List Move}
    (hCancels :
      Relation.ReflTransGen Cancels moves others)
    (names : List String) :
    run names moves = run names others := by
  induction hCancels with
  | refl =>
      rfl
  | tail _ hLast ih =>
      rw [ih, run_eq_of_cancels_one hLast]

/-
  Where all steps can be taken, cancelling the steps up
  leaves the steps down to the names that are reached.
-/
theorem cancels_of_run
    {names reached : List String}
    {moves : List Move}
    (hRun : run names moves = some reached) :
    Relation.ReflTransGen Cancels
      (names.reverse.map .down ++ moves)
      (reached.reverse.map .down) := by
  induction moves generalizing names with
  | nil =>
      have hSame : names = reached := by
        simpa [run] using hRun
      rw [hSame, List.append_nil]
  | cons move rest ih =>
      rw [run, List.foldlM_cons] at hRun
      cases move with
      | down name =>
          have hBelow :
              run (name :: names) rest = some reached := hRun
          have hRest := ih hBelow
          simpa using hRest
      | up =>
          cases names with
          | nil =>
              simp [apply] at hRun
          | cons name above =>
              have hAbove :
                  run above rest = some reached := hRun
              have hRest := ih hAbove
              refine .head ?_ hRest
              have hPair :=
                Cancels.pair (above.reverse.map .down)
                  name rest
              simpa using hPair

/-
  Nothing but steps down can be left of steps in one way
  only.
-/
theorem eq_of_cancels_down
    {moves : List Move}
    {names others : List String}
    (hNames :
      Relation.ReflTransGen Cancels moves
        (names.map .down))
    (hOthers :
      Relation.ReflTransGen Cancels moves
        (others.map .down)) :
    names = others := by
  have hRun :=
    (run_eq_of_cancels hNames []).symm.trans
      (run_eq_of_cancels hOthers [])
  simpa [run_down] using hRun

end Move

end HierPath
