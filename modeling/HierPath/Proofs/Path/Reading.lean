import HierPath.Proofs.Path.Moves
import HierPath.Proofs.Path.Pieces

/-
  What reading a path gives, for every text and context.

  The pieces of a text are those of its marked characters,
  and they are settled by taking their steps. From this the
  outcome of reading is told without a stack: the text is
  empty, it climbs above its start, it ends inside an
  escape, or it leads to the names that are left when the
  steps up are cancelled. Where several of these hold, the
  first of them is the outcome.

  Key definitions include:
    * `Path.isRooted`
    * `Path.remainder`
    * `Path.startOf`
    * `Path.pieces`

  Key theorems include:
    * `Path.parseIn_eq_resolve`
    * `Path.resolve_of_closed`
    * `Path.resolve_of_open`
    * `Path.parseIn_decides_grammar`
-/

------------------------------------------------------------
-- Parts Of A Text
------------------------------------------------------------

namespace HierPath

namespace Path

/- The text has a separator in front. -/
def isRooted
    (raw : String) : Bool :=
  raw.toList.head? = some '/'

/- The text without one separator in front. -/
def remainder
    (raw : String) : List Char :=
  if isRooted raw then raw.toList.tail else raw.toList

/- The path that a text is read on from. -/
def startOf
    (context : Option Path)
    (raw : String) : Path :=
  if isRooted raw then root else context.getD relativeRoot

/- The pieces of a text. -/
def pieces
    (chars : List Char) : List String :=
  (Pieces.ofText chars).map String.ofList

/- A text that is not empty is read on from its start. -/
theorem parseIn_eq_resolve
    (context : Option Path)
    {raw : String}
    (hRaw : raw ≠ "") :
    parseIn context raw =
      resolve raw (startOf context raw) (remainder raw) := by
  unfold parseIn
  split
  next hChars =>
    exact absurd (String.toList_eq_nil_iff.mp hChars) hRaw
  next rest hChars =>
    simp [startOf, remainder, isRooted, hChars]
  next hEmpty hPlain =>
    have hRooted : isRooted raw = false := by
      cases hChars : raw.toList with
      | nil =>
          exact absurd hChars hEmpty
      | cons c rest =>
          have hPlain : c ≠ '/' := by
            rintro rfl
            exact hPlain rest hChars
          simp [isRooted, hChars, hPlain]
    simp [startOf, remainder, hRooted]

end Path

end HierPath

------------------------------------------------------------
-- Settled Pieces
------------------------------------------------------------

namespace HierPath

namespace Path

/-
  A text that does not end inside an escape is read by
  taking the steps of all its pieces.
-/
theorem resolve_of_closed
    (raw : String)
    (base : Path)
    {chars : List Char}
    (hClosed : Pieces.isOpenAfter false chars = false) :
    resolve raw base chars =
      match Move.run base.segments.reverse
          ((pieces chars).filterMap Move.ofPiece) with
      | none => .error (.aboveRoot raw)
      | some names => .ok ⟨base.anchor, names.reverse⟩ := by
  have hSplit := List.dropLast_append_getLast
    (Pieces.ofText_ne_nil chars)
  have hLast := List.getLast?_eq_some_getLast
    (Pieces.ofText_ne_nil chars)
  have hSteps :
      Move.run base.segments.reverse
          ((pieces chars).filterMap Move.ofPiece) =
        (Pieces.ofText chars).foldlM settle
          base.segments.reverse := by
    rw [Move.foldlM_settle, pieces]
  rw [hSteps, ← hSplit, List.foldlM_append]
  rw [resolve, Pieces.cut_eq_ofList, hClosed]
  simp only [Pieces.ofList, hLast, Bool.false_eq_true,
    if_false]
  cases (Pieces.ofText chars).dropLast.foldlM settle
      base.segments.reverse with
  | none =>
      rfl
  | some names =>
      simp only [List.foldlM_cons, List.foldlM_nil,
        Option.bind_eq_bind, Option.bind_some]
      cases settle names ((Pieces.ofText chars).getLast _)
        <;> rfl

/-
  A text that ends inside an escape is an error, and only
  the pieces before the last one matter.
-/
theorem resolve_of_open
    (raw : String)
    (base : Path)
    {chars : List Char}
    (hOpen : Pieces.isOpenAfter false chars = true) :
    resolve raw base chars =
      match Move.run base.segments.reverse
          ((pieces chars).dropLast.filterMap
            Move.ofPiece) with
      | none => .error (.aboveRoot raw)
      | some _ => .error (.danglingEscape raw) := by
  rw [resolve, Pieces.cut_eq_ofList, hOpen]
  simp only [Pieces.ofList, Move.foldlM_settle, if_true]
  rewrite [pieces, List.map_dropLast]
  rfl

end Path

end HierPath

------------------------------------------------------------
-- Outcomes
------------------------------------------------------------

namespace HierPath

namespace Path

/- A text is rooted or goes on from its context. -/
private theorem startOf_segments
    (context : Option Path)
    (raw : String) :
    (startOf context raw).segments =
      if isRooted raw then
        []
      else
        (context.map segments).getD [] := by
  cases hRooted : isRooted raw <;> cases context <;>
    simp [startOf, hRooted, root, relativeRoot]

/-
  The start is open where the text is not rooted and the
  context, if there is one, is open too.
-/
private theorem startOf_relative_iff
    (context : Option Path)
    (raw : String) :
    (startOf context raw).anchor = .relative ↔
      isRooted raw = false ∧
        ∀ c ∈ context, c.anchor = .relative := by
  cases hRooted : isRooted raw <;> cases context <;>
    simp [startOf, hRooted, root, relativeRoot]

/-
  Climbing above the start takes the pieces up to a limit
  only, however the rest of the text goes on.
-/
private theorem overshoots_dropLast
    (depth : Nat)
    (texts : List String) :
    Move.Overshoots depth texts.dropLast ↔
      ∃ i ≤ texts.length - 1,
        depth + (texts.take i).countP Segment.isName <
          (texts.take i).count ".." := by
  unfold Move.Overshoots
  rw [List.length_dropLast]
  refine exists_congr fun i => and_congr_right fun hBound => ?_
  rw [List.dropLast_eq_take, List.take_take,
    Nat.min_eq_left hBound]

/- An open text that climbs above its start. -/
theorem resolve_open_of_overshoots
    (raw : String)
    (base : Path)
    {chars : List Char}
    (hOpen : Pieces.isOpenAfter false chars = true)
    (hClimbs :
      Move.Overshoots base.depth (pieces chars).dropLast) :
    resolve raw base chars = .error (.aboveRoot raw) := by
  have hRun :=
    (Move.run_eq_none_iff base.segments.reverse _).mpr
      (by simpa [depth] using hClimbs)
  rw [resolve_of_open raw base hOpen, hRun]

/- An open text that does not climb above its start. -/
theorem resolve_open_of_not_overshoots
    (raw : String)
    (base : Path)
    {chars : List Char}
    (hOpen : Pieces.isOpenAfter false chars = true)
    (hStays :
      ¬ Move.Overshoots base.depth
        (pieces chars).dropLast) :
    resolve raw base chars =
      .error (.danglingEscape raw) := by
  rw [resolve_of_open raw base hOpen]
  cases hRun : Move.run base.segments.reverse
      ((pieces chars).dropLast.filterMap Move.ofPiece) with
  | none =>
      have hClimbs :=
        (Move.run_eq_none_iff base.segments.reverse _).mp
          hRun
      exact absurd (by simpa [depth] using hClimbs) hStays
  | some names =>
      rfl

/- A closed text that climbs above its start. -/
theorem resolve_closed_of_overshoots
    (raw : String)
    (base : Path)
    {chars : List Char}
    (hClosed : Pieces.isOpenAfter false chars = false)
    (hClimbs :
      Move.Overshoots base.depth (pieces chars)) :
    resolve raw base chars = .error (.aboveRoot raw) := by
  have hRun :=
    (Move.run_eq_none_iff base.segments.reverse _).mpr
      (by simpa [depth] using hClimbs)
  rw [resolve_of_closed raw base hClosed, hRun]

/-
  A closed text that does not climb above its start leads
  to the one list of names that is left when its steps up
  are cancelled.
-/
theorem resolve_closed_of_not_overshoots
    (raw : String)
    (base : Path)
    {chars : List Char}
    (hClosed : Pieces.isOpenAfter false chars = false)
    (hStays :
      ¬ Move.Overshoots base.depth (pieces chars)) :
    ∃ p, resolve raw base chars = .ok p ∧
      p.anchor = base.anchor ∧
      ∀ names : List String,
        Relation.ReflTransGen Move.Cancels
            (base.segments.map .down
              ++ (pieces chars).filterMap Move.ofPiece)
            (names.map .down) ↔
          p.segments = names := by
  rw [resolve_of_closed raw base hClosed]
  cases hRun : Move.run base.segments.reverse
      ((pieces chars).filterMap Move.ofPiece) with
  | none =>
      have hClimbs :=
        (Move.run_eq_none_iff base.segments.reverse _).mp
          hRun
      exact absurd (by simpa [depth] using hClimbs) hStays
  | some reached =>
      have hCancels := Move.cancels_of_run hRun
      rw [List.reverse_reverse] at hCancels
      refine ⟨_, rfl, rfl, fun names => ⟨?_, ?_⟩⟩
      · intro hNames
        exact Move.eq_of_cancels_down hCancels hNames
      · rintro rfl
        exact hCancels

/-
  Reading decides the grammar of paths. The pieces up to
  `limit` are those that are settled: all of them, or all
  but the last where the text ends in an odd number of
  escape marks.
-/
theorem parseIn_decides_grammar
    (context : Option Path)
    (raw : String) :
    let rest := remainder raw
    let base :=
      if isRooted raw then
        []
      else
        (context.map segments).getD []
    let texts := pieces rest
    let trailing := (rest.rtakeWhile (· = '\\')).length
    let limit :=
      if Odd trailing then texts.length - 1 else texts.length
    let climbs :=
      ∃ i ≤ limit,
        base.length
            + (texts.take i).countP Segment.isName <
          (texts.take i).count ".."
    (parseIn context raw = .error .empty ↔ raw = "") ∧
      (raw ≠ "" →
        (parseIn context raw = .error (.aboveRoot raw) ↔
          climbs) ∧
        (¬ climbs →
          (parseIn context raw =
              .error (.danglingEscape raw) ↔
            Odd trailing) ∧
          (¬ Odd trailing →
            ∃ p, parseIn context raw = .ok p ∧
              (p.anchor = .relative ↔
                isRooted raw = false ∧
                  ∀ c ∈ context, c.anchor = .relative) ∧
              ∀ names : List String,
                Relation.ReflTransGen Move.Cancels
                    (base.map .down
                      ++ texts.filterMap Move.ofPiece)
                    (names.map .down) ↔
                  p.segments = names))) := by
  intro rest base texts trailing limit climbs
  by_cases hRaw : raw = ""
  · subst raw
    refine ⟨⟨fun _ => rfl, fun _ => rfl⟩, fun hRaw => ?_⟩
    exact absurd rfl hRaw
  · have hBase : (startOf context raw).segments = base :=
      startOf_segments context raw
    have hDepth :
        (startOf context raw).depth = base.length := by
      unfold depth
      rw [hBase]
    have hTrailing := Pieces.isOpenAfter_iff_odd rest
    rw [parseIn_eq_resolve context hRaw]
    cases hOpen : Pieces.isOpenAfter false rest with
    | true =>
        have hOdd : Odd trailing := hTrailing.mp hOpen
        have hClimbs :
            Move.Overshoots (startOf context raw).depth
                texts.dropLast ↔
              climbs := by
          simpa [climbs, limit, hOdd, hDepth] using
            overshoots_dropLast base.length texts
        by_cases hAbove : climbs
        · have hResult := resolve_open_of_overshoots raw _
            hOpen (hClimbs.mpr hAbove)
          simp [rest, hResult, hRaw, hAbove]
        · have hResult := resolve_open_of_not_overshoots
            raw _ hOpen (mt hClimbs.mp hAbove)
          simp [rest, hResult, hRaw, hAbove, hOdd]
    | false =>
        have hEven : ¬ Odd trailing := by
          simp [trailing, ← hTrailing, hOpen]
        have hClimbs :
            Move.Overshoots (startOf context raw).depth
                texts ↔
              climbs := by
          simp [Move.Overshoots, climbs, limit, hEven, hDepth]
        by_cases hAbove : climbs
        · have hResult := resolve_closed_of_overshoots raw _
            hOpen (hClimbs.mpr hAbove)
          simp [rest, hResult, hRaw, hAbove]
        · rcases resolve_closed_of_not_overshoots raw
              (startOf context raw) hOpen
              (mt hClimbs.mp hAbove) with
            ⟨p, hResult, hAnchor, hNames⟩
          have hRelative :=
            startOf_relative_iff context raw
          rw [← hAnchor] at hRelative
          rw [hBase] at hNames
          rw [hResult]
          refine ⟨by simp [hRaw], fun _ => ⟨?_, fun _ => ?_⟩⟩
          · simp [hAbove]
          · refine ⟨by simp [hEven], fun _ => ?_⟩
            exact ⟨p, rfl, hRelative, hNames⟩

end Path

end HierPath
