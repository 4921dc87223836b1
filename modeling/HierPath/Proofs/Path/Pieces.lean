import HierPath.Path.Parse
import Mathlib.Algebra.Ring.Parity
import Mathlib.Data.List.DropRight

/-
  Laws of cutting text into pieces.

  The cut of a text is compared with a reading of it that
  looks at one character at a time: every character is
  marked as escaped or not, the marked text is split at the
  separators that are not escaped, and the escape marks that
  are not escaped are taken out.

  Key definitions include:
    * `Pieces.markFrom`
    * `Pieces.isOpenAfter`
    * `Pieces.ofText`
    * `Pieces.ofList`

  Key theorems include:
    * `Pieces.cut_eq_ofList`
    * `Pieces.isOpenAfter_iff_odd`
    * `Pieces.ofText_append_separator`
    * `Pieces.ofText_spelling_append`
-/

------------------------------------------------------------
-- Marked Text
------------------------------------------------------------

namespace HierPath

namespace Pieces

/-
  The characters of a text, each with whether it is escaped.
  An escape mark that is not itself escaped escapes the next
  character.
-/
def markFrom
    (escaped : Bool) : List Char → List (Char × Bool)
  | [] => []
  | c :: rest =>
      (c, escaped) :: markFrom (c = '\\' && !escaped) rest

/- A character after the text would be escaped. -/
def isOpenAfter
    (escaped : Bool)
    (chars : List Char) : Bool :=
  chars.foldl (fun escaped c => c = '\\' && !escaped) escaped

/- The marked character ends a piece. -/
def isBreak
    (marked : Char × Bool) : Bool :=
  marked = ('/', false)

/- The characters that a marked piece stands for. -/
def unmark
    (piece : List (Char × Bool)) : List Char :=
  (piece.filter (· ≠ ('\\', false))).map Prod.fst

/- The pieces of a marked text. -/
def ofMarked
    (marked : List (Char × Bool)) : List (List Char) :=
  (marked.splitOnP isBreak).map unmark

/-
  The pieces of a text, cut at the separators that are not
  escaped and freed of the escape marks.
-/
def ofText
    (chars : List Char) : List (List Char) :=
  ofMarked (markFrom false chars)

/- A character without a meaning leaves no escape open. -/
theorem isOpenAfter_plain
    {c : Char}
    (hPlain : Segment.isMark c = false)
    (chars : List Char) :
    isOpenAfter false (c :: chars) =
      isOpenAfter false chars := by
  have hEscape : c ≠ '\\' := by
    rintro rfl
    cases hPlain
  simp [isOpenAfter, hEscape]

/- Neither does an escaped character. -/
theorem isOpenAfter_escaped
    (c : Char)
    (chars : List Char) :
    isOpenAfter false ('\\' :: c :: chars) =
      isOpenAfter false chars := by
  simp [isOpenAfter]

end Pieces

end HierPath

------------------------------------------------------------
-- Splitting Marked Text
------------------------------------------------------------

namespace HierPath

namespace Pieces

/- An unescaped separator closes an empty piece. -/
private theorem ofMarked_break
    (marked : List (Char × Bool)) :
    ofMarked (('/', false) :: marked) =
      [] :: ofMarked marked := by
  simp [ofMarked, List.splitOnP_cons_eq_if_modifyHead,
    isBreak, unmark]

/- An unescaped escape mark leaves nothing behind. -/
private theorem ofMarked_escape
    (marked : List (Char × Bool)) :
    ofMarked (('\\', false) :: marked) =
      ofMarked marked := by
  rw [ofMarked, List.splitOnP_cons_eq_if_modifyHead]
  cases hSplit : marked.splitOnP isBreak with
  | nil =>
      simp at hSplit
  | cons first rest =>
      simp [ofMarked, hSplit, isBreak, unmark]

/- Any other character goes to the first piece. -/
private theorem ofMarked_plain
    {c : Char}
    {escaped : Bool}
    (hBreak : (c, escaped) ≠ ('/', false))
    (hEscape : (c, escaped) ≠ ('\\', false))
    (marked : List (Char × Bool)) :
    ofMarked ((c, escaped) :: marked) =
      (ofMarked marked).modifyHead (c :: ·) := by
  rw [ofMarked, List.splitOnP_cons_eq_if_modifyHead]
  cases hSplit : marked.splitOnP isBreak with
  | nil =>
      simp at hSplit
  | cons first rest =>
      have hKept :
          unmark ((c, escaped) :: first) =
            c :: unmark first := by
        rw [unmark, unmark, List.filter_cons_of_pos,
          List.map_cons]
        exact decide_eq_true hEscape
      simp [ofMarked, hSplit, isBreak, hBreak, hKept]

/- There is always a last piece. -/
theorem ofText_ne_nil
    (chars : List Char) :
    ofText chars ≠ [] := by
  simp [ofText, ofMarked]

/- A separator in front closes an empty piece. -/
theorem ofText_separator
    (rest : List Char) :
    ofText ('/' :: rest) = [] :: ofText rest := by
  simp [ofText, markFrom, ofMarked_break]

/- An escaped character belongs to the first piece. -/
theorem ofText_escaped
    (c : Char)
    (rest : List Char) :
    ofText ('\\' :: c :: rest) =
      (ofText rest).modifyHead (c :: ·) := by
  simp [ofText, markFrom, ofMarked_escape, ofMarked_plain]

/- So does a character without a meaning of its own. -/
theorem ofText_plain
    {c : Char}
    (hPlain : Segment.isMark c = false)
    (rest : List Char) :
    ofText (c :: rest) =
      (ofText rest).modifyHead (c :: ·) := by
  have hMarks : c ≠ '/' ∧ c ≠ '\\' := by
    simpa [Segment.isMark] using hPlain
  simp [ofText, markFrom, hMarks, ofMarked_plain]

end Pieces

end HierPath

------------------------------------------------------------
-- Cutting And Marking
------------------------------------------------------------

namespace HierPath

namespace Pieces

/-
  The pieces of a list, the last one final unless the text
  ends inside an escape.
-/
def ofList
    (isOpen : Bool)
    (pieces : List (List Char)) : Pieces where
  closed := pieces.dropLast
  final := if isOpen then none else pieces.getLast?

/- A character in front belongs to the first piece. -/
private theorem cons_ofList
    (c : Char)
    (isOpen : Bool)
    {pieces : List (List Char)}
    (hPieces : pieces ≠ []) :
    (ofList isOpen pieces).cons c =
      ofList isOpen (pieces.modifyHead (c :: ·)) := by
  cases pieces with
  | nil =>
      exact absurd rfl hPieces
  | cons first rest =>
      cases rest with
      | nil =>
          cases isOpen <;> rfl
      | cons second rest =>
          simp [ofList, cons]

/- A separator in front closes an empty piece. -/
private theorem close_ofList
    (isOpen : Bool)
    {pieces : List (List Char)}
    (hPieces : pieces ≠ []) :
    (ofList isOpen pieces).close =
      ofList isOpen ([] :: pieces) := by
  cases pieces with
  | nil =>
      exact absurd rfl hPieces
  | cons first rest =>
      simp [ofList, close]

/-
  A character is no mark where a cut goes on past it: it is
  no separator, and an escape mark is the whole text or
  escapes the next character.
-/
theorem isMark_eq_false_of_cut
    {c : Char}
    {rest : List Char}
    (hAlone : c = '\\' → rest = [] → False)
    (hEscape :
      ∀ next others, c = '\\' → rest = next :: others →
        False)
    (hBreak : c = '/' → False) :
    Segment.isMark c = false := by
  have hMark : c ≠ '\\' := by
    intro hMark
    cases rest with
    | nil => exact hAlone hMark rfl
    | cons next others => exact hEscape next others hMark rfl
  have hSeparator : c ≠ '/' := hBreak
  simp [Segment.isMark, hSeparator, hMark]

/-
  Cutting with a look at the next character finds the
  pieces of the marked text. The final piece is missing
  exactly where a further character would be escaped.
-/
theorem cut_eq_ofList
    (chars : List Char) :
    cut chars =
      ofList (isOpenAfter false chars) (ofText chars) := by
  fun_induction cut chars with
  | case1 =>
      rfl
  | case2 =>
      rfl
  | case3 c rest ih =>
      rw [ih, ofText_escaped,
        cons_ofList c _ (ofText_ne_nil rest)]
      simp [isOpenAfter]
  | case4 rest ih =>
      rw [ih, ofText_separator,
        close_ofList _ (ofText_ne_nil rest)]
      simp [isOpenAfter]
  | case5 c rest hAlone hEscape hBreak ih =>
      have hPlain :=
        isMark_eq_false_of_cut hAlone hEscape hBreak
      rw [ih, ofText_plain hPlain,
        cons_ofList c _ (ofText_ne_nil rest),
        isOpenAfter_plain hPlain]

end Pieces

end HierPath

------------------------------------------------------------
-- Trailing Escape Marks
------------------------------------------------------------

namespace HierPath

namespace Pieces

/- One character more closes or opens an escape. -/
private theorem isOpenAfter_concat
    (escaped : Bool)
    (chars : List Char)
    (c : Char) :
    isOpenAfter escaped (chars ++ [c]) =
      (c = '\\' && !isOpenAfter escaped chars) := by
  simp [isOpenAfter]

/-
  A text ends inside an escape exactly when it ends in an
  odd number of escape marks.
-/
theorem isOpenAfter_iff_odd
    (chars : List Char) :
    isOpenAfter false chars = true ↔
      Odd (chars.rtakeWhile (· = '\\')).length := by
  induction chars using List.reverseRecOn with
  | nil =>
      simp [isOpenAfter]
  | append_singleton chars c ih =>
      rw [isOpenAfter_concat, List.rtakeWhile_concat]
      by_cases hEscape : c = '\\'
      · simp [hEscape, Nat.odd_add_one, ← ih]
      · simp [hEscape]

end Pieces

end HierPath

------------------------------------------------------------
-- Joined And Spelled Text
------------------------------------------------------------

namespace HierPath

namespace Pieces

/- Marks go on from where a text in front has left them. -/
private theorem markFrom_append
    (escaped : Bool)
    (chars others : List Char) :
    markFrom escaped (chars ++ others) =
      markFrom escaped chars
        ++ markFrom (isOpenAfter escaped chars) others := by
  induction chars generalizing escaped with
  | nil =>
      rfl
  | cons c rest ih =>
      simp [markFrom, isOpenAfter, ih]

/- An escape stays open over joined texts in the same way. -/
theorem isOpenAfter_append
    (escaped : Bool)
    (chars others : List Char) :
    isOpenAfter escaped (chars ++ others) =
      isOpenAfter (isOpenAfter escaped chars) others := by
  simp [isOpenAfter]

/-
  A separator between two texts keeps their pieces apart,
  unless the first text ends inside an escape.
-/
theorem ofText_append_separator
    {chars : List Char}
    (hClosed : isOpenAfter false chars = false)
    (others : List Char) :
    ofText (chars ++ '/' :: others) =
      ofText chars ++ ofText others := by
  have hMarks :
      markFrom false (chars ++ '/' :: others) =
        markFrom false chars
          ++ ('/', false) :: markFrom false others := by
    simp [markFrom_append, hClosed, markFrom]
  have hBreak : isBreak ('/', false) = true := rfl
  unfold ofText ofMarked
  rw [hMarks, List.splitOnP_append_cons _ _ hBreak,
    List.map_append]

/- A spelled name is one piece, the name itself. -/
theorem ofText_spelling
    (name : String) :
    ofText (Segment.spelling name) = [name.toList] := by
  unfold Segment.spelling
  induction name.toList with
  | nil =>
      rfl
  | cons c rest ih =>
      rw [List.flatMap_cons, Segment.spellChar]
      cases hMark : Segment.isMark c with
      | false =>
          simp [ofText_plain hMark, ih]
      | true =>
          simp [ofText_escaped, ih]

/- A spelled name does not end inside an escape. -/
theorem isOpenAfter_spelling
    (name : String) :
    isOpenAfter false (Segment.spelling name) = false := by
  unfold Segment.spelling
  induction name.toList with
  | nil =>
      rfl
  | cons c rest ih =>
      rw [List.flatMap_cons, Segment.spellChar]
      cases hMark : Segment.isMark c with
      | false => exact (isOpenAfter_plain hMark _).trans ih
      | true => exact (isOpenAfter_escaped c _).trans ih

/- Spelled names, one below the other, are their pieces. -/
theorem ofText_spelling_append
    (name : String)
    (names : List String) :
    ofText (Segment.spelling name
        ++ Path.spellSegments names) =
      (name :: names).map String.toList := by
  induction names generalizing name with
  | nil =>
      simp [Path.spellSegments, ofText_spelling]
  | cons next names ih =>
      have hRest := ih next
      rw [Path.spellSegments, List.flatMap_cons,
        List.cons_append, ofText_append_separator
          (isOpenAfter_spelling name)]
      rw [Path.spellSegments] at hRest
      rw [hRest, ofText_spelling]
      rfl

/- Spelled names do not end inside an escape either. -/
theorem isOpenAfter_spellSegments
    (names : List String) :
    isOpenAfter false (Path.spellSegments names) = false := by
  induction names with
  | nil =>
      rfl
  | cons name names ih =>
      have hSeparator : isOpenAfter false ['/'] = false := by
        rfl
      unfold Path.spellSegments at ih ⊢
      rw [List.flatMap_cons, ← List.singleton_append,
        isOpenAfter_append, isOpenAfter_append, hSeparator,
        isOpenAfter_spelling, ih]

end Pieces

end HierPath
