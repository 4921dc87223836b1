import HierPath.Proofs.Path.Joining

/-
  Adding a name to a path.

  A name is added as it is, with nothing in it interpreted.
  Escaped, it reads as the same single piece: the escape in
  front of a mark keeps it from starting a path at the root,
  from cutting the name and from ending the text inside an
  escape. So a name can be added or its escaped text read,
  and the path is spelled by adding that text too.

  Key theorems include:
    * `Path.isRooted_escape`
    * `Path.child_escape`
    * `Path.text_below`
    * `Path.push_reads_escaped_name`
-/

------------------------------------------------------------
-- Escaped Names
------------------------------------------------------------

namespace HierPath

namespace Segment

/- The characters of an escaped name are its spelling. -/
theorem toList_escape
    (name : String) :
    (escape name).toList = spelling name :=
  String.toList_ofList

end Segment

namespace Path

/- An escaped name has no bare separator in front. -/
theorem isRooted_escape
    (name : String) :
    isRooted (Segment.escape name) = false := by
  rw [isRooted, Segment.toList_escape, Segment.spelling]
  cases name.toList with
  | nil =>
      rfl
  | cons c rest =>
      rw [List.flatMap_cons, Segment.spellChar]
      cases hMark : Segment.isMark c with
      | true =>
          rfl
      | false =>
          have hPlain : c ≠ '/' := by
            rintro rfl
            cases hMark
          simp [hPlain]

/- Reading an escaped name leads to the name. -/
theorem child_escape
    (p : Path)
    {name : String}
    (hName : Segment.isName name = true) :
    p.child (Segment.escape name) = .ok (p.below name) := by
  have hText : Segment.escape name ≠ "" := by
    intro hEmpty
    have hSame :
        Segment.spelling name = Segment.spelling "" := by
      rw [← Segment.toList_escape, hEmpty]
      rfl
    rw [Segment.spelling_injective hSame] at hName
    cases hName
  have hPieces :
      (pieces (Segment.escape name).toList).filterMap
          Move.ofPiece =
        [.down name] := by
    rw [pieces, Segment.toList_escape,
      Pieces.ofText_spelling, List.map_singleton,
      String.ofList_toList]
    exact Move.filterMap_ofPiece (by simpa using hName)
  rw [child, parseIn_some_eq_resolve p hText
    (isRooted_escape name), resolve_eq_ok_iff]
  refine ⟨?_, rfl, ?_⟩
  · rw [Segment.toList_escape]
    exact Pieces.isOpenAfter_spelling name
  · rw [hPieces]
    simp [Move.run, Move.apply, below]

end Path

end HierPath

------------------------------------------------------------
-- The Path Of An Added Name
------------------------------------------------------------

namespace HierPath

namespace Path

/- The parent of a path with a name added is the path. -/
theorem parent?_below
    (p : Path)
    (name : String) :
    (p.below name).parent? = some p := by
  simp [parent?, isRoot, below, top, depth]

/-
  A path with a name added is written by adding the escaped
  name after a separator. The root of all is written as if
  it were empty, since its sign is the separator itself.
-/
theorem text_below
    (p : Path)
    (name : String) :
    (p.below name).text =
      (if p = root then "" else p.text) ++ "/"
        ++ Segment.escape name := by
  rw [← String.toList_inj, toList_text, spelling_below]
  split <;> simp [toList_text, Segment.toList_escape]

/-
  Adding a name fails exactly for the texts that only move.
  Any other text is added as the one last segment, which is
  what its escaped form reads as from the path. The parent
  of the result is the path, and its text is the text of the
  path with the escaped name after a separator.
-/
theorem push_reads_escaped_name
    (p : Path)
    (name : String) :
    (p.push name = .error (.invalidSegment name) ↔
        name = "" ∨ name = "." ∨ name = "..")
      ∧ (name ≠ "" ∧ name ≠ "." ∧ name ≠ ".." →
        ∃ q, p.push name = .ok q
          ∧ p.child (Segment.escape name) = .ok q
          ∧ q.anchor = p.anchor
          ∧ q.segments = p.segments ++ [name]
          ∧ q.parent? = some p
          ∧ q.text =
            (if p = root then "" else p.text) ++ "/"
              ++ Segment.escape name) := by
  constructor
  · rw [push, ← not_iff_not]
    simp only [not_or, ← Segment.isName_iff]
    cases Segment.isName name <;> simp
  · intro hNot
    have hName := Segment.isName_iff.mpr hNot
    exact ⟨p.below name, if_pos hName, child_escape p hName,
      rfl, rfl, parent?_below p name, text_below p name⟩

/-
  A name that starts with a separator and ends in an escape
  mark is added to the root of all.
-/
theorem push_reads_escaped_name_of_marks :
    ∃ q, push root "/a\\" = .ok q
      ∧ child root "\\/a\\\\" = .ok q
      ∧ q.parent? = some root
      ∧ q.text = "/\\/a\\\\" := by
  have hEscaped :
      Segment.escape "/a\\" = "\\/a\\\\" := by
    decide +kernel
  obtain ⟨q, hPush, hChild, _, _, hParent, hText⟩ :=
    (push_reads_escaped_name root "/a\\").2 (by decide)
  rw [hEscaped] at hChild hText
  exact ⟨q, hPush, hChild, hParent,
    hText.trans (by decide +kernel)⟩

end Path

end HierPath
