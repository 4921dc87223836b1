import HierPath.Proofs.Path.Constructible

/-
  Reading a text that is joined from two.

  A text that has been read leaves no piece and no escape
  open, so a separator and more text after it go on from
  the path that was reached. Reading the joined text is
  therefore reading the second text in the context of that
  path; a failure is the same but for the text it quotes.

  Steps that can be taken from nothing can be taken below
  any names, and then leave those names alone. So a text
  that can be read on its own is read in a context by
  joining its path to the context.

  Key definitions include:
    * `PathError.quoting`

  Key theorems include:
    * `Path.parseIn_some_eq_resolve`
    * `Path.resolve_append_separator`
    * `Path.parseIn_append_separator`
    * `Path.child_eq_join`
    * `Path.parseIn_composes`
-/

------------------------------------------------------------
-- Failures
------------------------------------------------------------

namespace HierPath

namespace PathError

/- The same failure of reading, found in another text. -/
def quoting
    (raw : String) : PathError → PathError
  | .danglingEscape _ => .danglingEscape raw
  | .aboveRoot _ => .aboveRoot raw
  | cause => cause

end PathError

end HierPath

------------------------------------------------------------
-- Steps Below Other Names
------------------------------------------------------------

namespace HierPath

namespace Move

/- Names further up do not change where steps lead. -/
theorem run_append_names
    {names reached : List String}
    {moves : List Move}
    (hRun : run names moves = some reached)
    (base : List String) :
    run (names ++ base) moves = some (reached ++ base) := by
  induction moves generalizing names with
  | nil =>
      have hSame : names = reached := by
        simpa [run] using hRun
      rw [hSame]
      rfl
  | cons move rest ih =>
      rw [run, List.foldlM_cons] at hRun ⊢
      cases move with
      | down name =>
          have hBelow : run (name :: names) rest =
              some reached := hRun
          exact ih hBelow
      | up =>
          cases names with
          | nil =>
              simp [apply] at hRun
          | cons name above =>
              have hAbove : run above rest =
                  some reached := hRun
              exact ih hAbove

end Move

end HierPath

------------------------------------------------------------
-- Parts Of A Joined Text
------------------------------------------------------------

namespace HierPath

namespace Path

/- A text that is not empty has a first character. -/
private theorem exists_toList_of_ne_empty
    {raw : String}
    (hRaw : raw ≠ "") :
    ∃ c rest, raw.toList = c :: rest := by
  apply List.exists_cons_of_ne_nil
  intro hChars
  exact hRaw (String.toList_eq_nil_iff.mp hChars)

/- A text in front decides whether the whole is rooted. -/
private theorem isRooted_append
    {raw : String}
    (hRaw : raw ≠ "")
    (other : String) :
    isRooted (raw ++ other) = isRooted raw := by
  rcases exists_toList_of_ne_empty hRaw with
    ⟨c, rest, hChars⟩
  unfold isRooted
  rw [String.toList_append, hChars]
  rfl

/- A joined text is read on from where its front is. -/
private theorem startOf_append
    (context : Option Path)
    {raw : String}
    (hRaw : raw ≠ "")
    (other : String) :
    startOf context (raw ++ other) =
      startOf context raw := by
  unfold startOf
  rw [isRooted_append hRaw]

/- The front alone loses a separator in front. -/
private theorem remainder_append
    {raw : String}
    (hRaw : raw ≠ "")
    (other : String) :
    remainder (raw ++ other) =
      remainder raw ++ other.toList := by
  rcases exists_toList_of_ne_empty hRaw with
    ⟨c, rest, hChars⟩
  unfold remainder
  rw [isRooted_append hRaw, String.toList_append, hChars]
  cases isRooted raw <;> rfl

/-
  A separator keeps pieces apart, unless the text before it
  ends inside an escape.
-/
private theorem pieces_append_separator
    {chars : List Char}
    (hClosed : Pieces.isOpenAfter false chars = false)
    (others : List Char) :
    pieces (chars ++ '/' :: others) =
      pieces chars ++ pieces others := by
  unfold pieces
  rw [Pieces.ofText_append_separator hClosed,
    List.map_append]

/-
  The end of a text alone decides whether it ends inside an
  escape, where no escape is open at the separator before.
-/
private theorem isOpenAfter_append_separator
    {chars : List Char}
    (hClosed : Pieces.isOpenAfter false chars = false)
    (others : List Char) :
    Pieces.isOpenAfter false (chars ++ '/' :: others) =
      Pieces.isOpenAfter false others := by
  rw [Pieces.isOpenAfter_append, hClosed]
  rfl

end Path

end HierPath

------------------------------------------------------------
-- Reading On
------------------------------------------------------------

namespace HierPath

namespace Path

/-
  A text is read where it does not end inside an escape and
  the steps of all its pieces can be taken.
-/
theorem resolve_eq_ok_iff
    (raw : String)
    (base : Path)
    (chars : List Char)
    (p : Path) :
    resolve raw base chars = .ok p ↔
      Pieces.isOpenAfter false chars = false
        ∧ p.anchor = base.anchor
        ∧ Move.run base.segments.reverse
            ((pieces chars).filterMap Move.ofPiece) =
          some p.segments.reverse := by
  cases hOpen : Pieces.isOpenAfter false chars with
  | true =>
      rw [resolve_of_open raw base hOpen]
      split <;> simp
  | false =>
      rw [resolve_of_closed raw base hOpen]
      rcases p with ⟨anchor, segments⟩
      cases Move.run base.segments.reverse
          ((pieces chars).filterMap Move.ofPiece) with
      | none =>
          simp
      | some names =>
          have hTurned :
              names.reverse = segments ↔
                names = segments.reverse :=
            List.reverse_eq_iff
          simp only [Except.ok.injEq, mk.injEq, hTurned,
            Option.some.injEq, true_and]
          exact and_congr_left fun _ => eq_comm

/-
  Text after a separator is read on from the path that the
  text before the separator leads to.
-/
theorem resolve_append_separator
    {raw : String}
    {base p : Path}
    {chars : List Char}
    (hRead : resolve raw base chars = .ok p)
    (full rest : String)
    (others : List Char) :
    resolve full base (chars ++ '/' :: others) =
      (resolve rest p others).mapError (.quoting full) := by
  rcases (resolve_eq_ok_iff raw base chars p).mp hRead with
    ⟨hClosed, hAnchor, hRun⟩
  have hPieces := pieces_append_separator hClosed others
  have hOpenAfter :=
    isOpenAfter_append_separator hClosed others
  -- The steps before the separator lead to the path, so
  -- those after it start from there.
  have hSteps :
      ∀ texts : List String,
        Move.run base.segments.reverse
            ((pieces chars ++ texts).filterMap
              Move.ofPiece) =
          Move.run p.segments.reverse
            (texts.filterMap Move.ofPiece) := by
    intro texts
    rw [List.filterMap_append, Move.run_append, hRun]
    rfl
  cases hOpen : Pieces.isOpenAfter false others with
  | true =>
      rw [hOpen] at hOpenAfter
      have hSome : pieces others ≠ [] := by
        unfold pieces
        simpa using Pieces.ofText_ne_nil others
      rw [resolve_of_open full base hOpenAfter,
        resolve_of_open rest p hOpen, hPieces,
        List.dropLast_append_of_ne_nil hSome, hSteps]
      split <;> rfl
  | false =>
      rw [hOpen] at hOpenAfter
      rw [resolve_of_closed full base hOpenAfter,
        resolve_of_closed rest p hOpen, hPieces, hSteps,
        ← hAnchor]
      split <;> rfl

/- A text without a separator in front is read whole. -/
theorem parseIn_some_eq_resolve
    (p : Path)
    {rest : String}
    (hRest : rest ≠ "")
    (hPlain : isRooted rest = false) :
    parseIn (some p) rest =
      resolve rest p rest.toList := by
  rw [parseIn_eq_resolve (some p) hRest]
  simp [startOf, remainder, hPlain]

/-
  Reading a joined text is reading its second part in the
  context of the path that the first part leads to.
-/
theorem parseIn_append_separator
    {context : Option Path}
    {raw : String}
    {p : Path}
    (hRead : parseIn context raw = .ok p)
    {rest : String}
    (hRest : rest ≠ "")
    (hPlain : isRooted rest = false) :
    parseIn context (raw ++ "/" ++ rest) =
      (parseIn (some p) rest).mapError
        (.quoting (raw ++ "/" ++ rest)) := by
  have hRaw : raw ≠ "" := by
    rintro rfl
    cases hRead
  rw [parseIn_eq_resolve context hRaw] at hRead
  have hJoined : raw ++ "/" ++ rest ≠ "" := by
    intro hEmpty
    rw [String.append_assoc] at hEmpty
    apply hRaw
    exact (String.append_eq_empty_iff.mp hEmpty).1
  rw [parseIn_eq_resolve context hJoined,
    parseIn_some_eq_resolve p hRest hPlain,
    String.append_assoc, startOf_append context hRaw,
    remainder_append hRaw, String.toList_append]
  exact resolve_append_separator hRead _ rest rest.toList

/-
  What a text leads to on its own, it leads to below any
  path.
-/
theorem child_eq_join
    {rest : String}
    (hRest : rest ≠ "")
    (hPlain : isRooted rest = false)
    {q : Path}
    (hRead : parse rest = .ok q)
    (p : Path) :
    p.child rest = .ok (p.join q) := by
  have hStart : startOf none rest = relativeRoot := by
    simp [startOf, hPlain]
  have hWhole : remainder rest = rest.toList := by
    simp [remainder, hPlain]
  rw [parse, parseIn_eq_resolve none hRest, hStart, hWhole,
    resolve_eq_ok_iff] at hRead
  rcases hRead with ⟨hClosed, _, hRun⟩
  rw [child, parseIn_some_eq_resolve p hRest hPlain,
    resolve_eq_ok_iff]
  refine ⟨hClosed, rfl, ?_⟩
  have hBelow :=
    Move.run_append_names hRun p.segments.reverse
  simpa [join, relativeRoot] using hBelow

/-
  Reading in a context composes like joining texts with a
  separator. The last two parts say so for the text of the
  path itself, where the context has names for segments as
  every path has that can be made, and for texts that can
  be read on their own.
-/
theorem parseIn_composes
    {context : Option Path}
    {raw : String}
    {p : Path}
    (hRead : parseIn context raw = .ok p)
    {rest : String}
    (hRest : rest ≠ "")
    (hPlain : isRooted rest = false) :
    parseIn context (raw ++ "/" ++ rest) =
        (parseIn (some p) rest).mapError
          (.quoting (raw ++ "/" ++ rest))
      ∧ ((∀ c ∈ context, c.Named) →
        parse (p.text ++ "/" ++ rest) =
          (p.child rest).mapError
            (.quoting (p.text ++ "/" ++ rest)))
      ∧ (∀ q, parse rest = .ok q →
        p.child rest = .ok (p.join q)) := by
  refine ⟨?_, ?_, ?_⟩
  · exact parseIn_append_separator hRead hRest hPlain
  · intro hContext
    have hNamed := named_of_parseIn hContext hRead
    have hText : parse p.text = .ok p :=
      parseIn_text hNamed (Or.inr rfl)
    exact parseIn_append_separator hText hRest hPlain
  · intro q hAlone
    exact child_eq_join hRest hPlain hAlone p

/-
  Text after an escaped separator climbs out of the context
  when it is read on, and too far when it climbs once more.
-/
theorem parseIn_composes_of_climbs :
    parseIn (some ⟨.absolute, ["x"]⟩)
        ("a\\/b" ++ "/" ++ "../../c") =
        .ok ⟨.absolute, ["c"]⟩
      ∧ parse (text ⟨.absolute, ["x", "a/b"]⟩
          ++ "/" ++ "../../../c") =
        .error (.aboveRoot "/x/a\\/b/../../../c")
      ∧ child ⟨.absolute, ["x", "a/b"]⟩ "d/../e" =
        .ok ⟨.absolute, ["x", "a/b", "e"]⟩ := by
  have hRead :
      parseIn (some ⟨.absolute, ["x"]⟩) "a\\/b" =
        .ok ⟨.absolute, ["x", "a/b"]⟩ := by
    decide +kernel
  have hContext :
      ∀ c ∈ some (⟨.absolute, ["x"]⟩ : Path), c.Named := by
    simp [Named, Segment.isName]
  refine ⟨?_, ?_, ?_⟩
  · rw [(parseIn_composes hRead (by decide)
      (by decide)).1]
    decide +kernel
  · rw [(parseIn_composes hRead (by decide)
      (by decide)).2.1 hContext]
    decide +kernel
  · exact (parseIn_composes hRead (by decide)
      (by decide)).2.2 ⟨.relative, ["e"]⟩
      (by decide +kernel)

end Path

end HierPath
