import HierPath.Proofs.Path.Order
import HierPath.Proofs.Path.RoundTrip
import Mathlib.Data.Char

/-
  The order of paths against the order of their texts.

  The two orders are not the same. Anchors come in turned
  order, since the sign of the absolute one is the larger
  character. Below one anchor a text turns the order around
  in two ways: a separator after a name is compared with a
  character that a longer name has there, and a separator
  inside a name is written with an escape mark in front.
  There are no other ways, so the orders agree on all other
  paths.

  Key definitions include:
    * `Path.Crosses`

  Key theorems include:
    * `Segment.precedes_spellChar`
    * `Path.compare_spellSegments_of_lt`
    * `Path.Crosses.compare_eq_lt`
    * `Path.Crosses.compare_spellSegments`
    * `Path.compare_spellSegments_iff`
    * `Path.texts_in_order_iff`
    * `Path.order_differs_from_texts`
-/

------------------------------------------------------------
-- Names In Turned Order
------------------------------------------------------------

namespace HierPath

namespace Path

/-
  The first names in which the lists differ are in order,
  but what is written for them is not. The second name goes
  on from the first with a character before the separator,
  where the first list has a separator for its next name. Or
  the first name has a separator, where the second has a
  character between the separator and the escape mark that
  is written for it.
-/
inductive Crosses
    (names others : List String) : Prop where
  | longer
      (base : List String)
      {name below other : String}
      {c : Char}
      (hNames : base ++ [name, below] <+: names)
      (hOthers : base ++ [other] <+: others)
      (hLonger : name.toList ++ [c] <+: other.toList)
      (hBefore : c < '/')
  | escaped
      (base : List String)
      {name other : String}
      {front : List Char}
      {c : Char}
      (hNames : base ++ [name] <+: names)
      (hOthers : base ++ [other] <+: others)
      (hName : front ++ ['/'] <+: name.toList)
      (hOther : front ++ [c] <+: other.toList)
      (hAfter : '/' < c)
      (hBefore : c < '\\')

end Path

end HierPath

------------------------------------------------------------
-- Spelled Characters And Names
------------------------------------------------------------

namespace HierPath

namespace Segment

/- A mark is a separator or an escape mark. -/
theorem isMark_iff
    {c : Char} :
    isMark c = true ↔ c = '/' ∨ c = '\\' := by
  simp [isMark]

/- A character without a meaning is spelled as it is. -/
theorem spellChar_plain
    {c : Char}
    (hPlain : isMark c = false) :
    spellChar c = [c] := by
  simp [spellChar, hPlain]

/- A character is spelled as it is unless it is a mark. -/
theorem spellChar_of_ne
    {c : Char}
    (hSeparator : c ≠ '/')
    (hEscape : c ≠ '\\') :
    spellChar c = [c] := by
  apply spellChar_plain
  rw [← Bool.not_eq_true, isMark_iff]
  exact not_or.mpr ⟨hSeparator, hEscape⟩

/- A mark is spelled with an escape mark in front. -/
theorem spellChar_mark
    {c : Char}
    (hMark : isMark c = true) :
    spellChar c = ['\\', c] := by
  simp [spellChar, hMark]

/- Characters in order part where both stand alone. -/
private theorem precedes_of_lt
    {c d : Char}
    (hLess : c < d)
    (rest more : List Char) :
    Precedes (c :: rest) (d :: more) :=
  Precedes.of_first
    (Text.compare_char_eq_lt_iff.mpr hLess) rest more

/-
  A separator comes before what is spelled for a character
  that does not come before it.
-/
theorem precedes_separator
    {c : Char}
    (hAfter : '/' ≤ c)
    (rest more : List Char) :
    Precedes ('/' :: rest) (spellChar c ++ more) := by
  cases hMark : isMark c with
  | false =>
      rw [spellChar_plain hMark]
      refine precedes_of_lt (lt_of_le_of_ne hAfter ?_) _ _
      rintro rfl
      cases hMark
  | true =>
      rw [spellChar_mark hMark]
      exact precedes_of_lt (by decide) _ _

/- A character before the separator is spelled before it. -/
theorem precedes_before_separator
    {c : Char}
    (hBefore : c < '/')
    (rest more : List Char) :
    Precedes (spellChar c ++ rest) ('/' :: more) := by
  have hEscape : c < '\\' :=
    hBefore.trans (by decide)
  rw [spellChar_of_ne hBefore.ne hEscape.ne]
  exact precedes_of_lt hBefore _ _

/-
  Characters are spelled in their order, unless a separator
  is escaped and the other one is not and comes before the
  escape mark.
-/
theorem precedes_spellChar
    {c d : Char}
    (hLess : c < d)
    (hKept : c = '/' → '\\' ≤ d) :
    Precedes (spellChar c) (spellChar d) := by
  have hMarks : '/' < '\\' := by
    decide
  cases hFirst : isMark c with
  | false =>
      rw [spellChar_plain hFirst]
      cases hSecond : isMark d with
      | false =>
          rw [spellChar_plain hSecond]
          exact precedes_of_lt hLess _ _
      | true =>
          rw [spellChar_mark hSecond]
          refine precedes_of_lt ?_ _ _
          rcases isMark_iff.mp hSecond with rfl | rfl
          · exact hLess.trans hMarks
          · exact hLess
  | true =>
      rw [spellChar_mark hFirst]
      cases hSecond : isMark d with
      | false =>
          rw [spellChar_plain hSecond]
          refine precedes_of_lt ?_ _ _
          rcases isMark_iff.mp hFirst with rfl | rfl
          · refine lt_of_le_of_ne (hKept rfl) ?_
            rintro rfl
            cases hSecond
          · exact hLess
      | true =>
          rw [spellChar_mark hSecond]
          exact (precedes_of_lt hLess [] []).append_left
            ['\\']

/-
  An escaped separator comes after characters between it and
  the escape mark.
-/
theorem precedes_spellChar_separator
    {c : Char}
    (hAfter : '/' < c)
    (hBefore : c < '\\') :
    Precedes (spellChar c) (spellChar '/') := by
  rw [spellChar_of_ne hAfter.ne' hBefore.ne,
    spellChar_mark rfl]
  exact precedes_of_lt hBefore _ _

/- Names that part have spellings that part where they do. -/
theorem precedes_spelling
    {name other : String}
    {front : List Char}
    {c d : Char}
    (hName : front ++ [c] <+: name.toList)
    (hOther : front ++ [d] <+: other.toList)
    (hParts : Precedes (spellChar c) (spellChar d)) :
    Precedes (spelling name) (spelling other) := by
  rcases hName with ⟨rest, hRest⟩
  rcases hOther with ⟨more, hMore⟩
  unfold spelling
  rw [← hRest, ← hMore]
  simp only [List.flatMap_append, List.append_assoc]
  refine Precedes.append_left ?_ _
  simpa using hParts.append_right _ _

end Segment

end HierPath

------------------------------------------------------------
-- Spelled Lists Of Names
------------------------------------------------------------

namespace HierPath

namespace Path

variable {names others base rest more : List String}
variable {name other : String}

/- Lists of names part where the first other names do. -/
private theorem precedes_spellSegments
    (hParts :
      Precedes (Segment.spelling name ++ spellSegments rest)
        (Segment.spelling other ++ spellSegments more)) :
    Precedes (spellSegments (base ++ name :: rest))
      (spellSegments (base ++ other :: more)) := by
  unfold spellSegments at hParts ⊢
  simp only [List.flatMap_append, List.flatMap_cons,
    List.cons_append]
  exact (hParts.append_left ['/']).append_left _

/- A longer name is spelled by spelling the rest of it. -/
private theorem exists_spelling_longer
    {c : Char}
    (hLonger : name.toList ++ [c] <+: other.toList) :
    ∃ tail, Segment.spelling other =
      Segment.spelling name
        ++ (Segment.spellChar c ++ tail) := by
  rcases hLonger with ⟨tail, hTail⟩
  refine ⟨tail.flatMap Segment.spellChar, ?_⟩
  unfold Segment.spelling
  rw [← hTail]
  simp

/-
  A name and a longer one are spelled in order, or what is
  below the name crosses the longer one.
-/
private theorem compare_spellSegments_of_longer
    {c : Char}
    (hLonger : name.toList ++ [c] <+: other.toList) :
    compare (spellSegments (base ++ name :: rest))
          (spellSegments (base ++ other :: more)) =
        .lt
      ∨ Crosses (base ++ name :: rest)
        (base ++ other :: more) := by
  rcases exists_spelling_longer hLonger with ⟨tail, hTail⟩
  cases rest with
  | nil =>
      left
      rw [compare_eq_lt_iff]
      left
      cases hChar : Segment.spellChar c with
      | nil =>
          cases hMark : Segment.isMark c <;>
            simp [Segment.spellChar, hMark] at hChar
      | cons first chars =>
          refine ⟨first,
            chars ++ tail ++ spellSegments more, ?_⟩
          simp [spellSegments, hTail, hChar]
  | cons below rest =>
      rcases lt_or_ge c '/' with hBefore | hAfter
      · right
        have hNames :
            base ++ [name, below] <+:
              base ++ name :: below :: rest :=
          ⟨rest, by simp⟩
        exact .longer base hNames ⟨more, by simp⟩ hLonger
          hBefore
      · left
        apply Precedes.compare_eq_lt
        apply precedes_spellSegments
        rw [hTail, List.append_assoc, List.append_assoc]
        exact (Segment.precedes_separator hAfter _ _
          ).append_left _

/-
  Names that part are spelled in order, or a separator in
  the first crosses a character of the other.
-/
private theorem compare_spellSegments_of_precedes
    (hParts : Precedes name.toList other.toList) :
    compare (spellSegments (base ++ name :: rest))
          (spellSegments (base ++ other :: more)) =
        .lt
      ∨ Crosses (base ++ name :: rest)
        (base ++ other :: more) := by
  rcases hParts with ⟨front, c, d, hChars, hName, hOther⟩
  have hLess : c < d :=
    Text.compare_char_eq_lt_iff.mp hChars
  by_cases hCrosses : c = '/' ∧ d < '\\'
  · right
    rcases hCrosses with ⟨rfl, hBefore⟩
    exact .escaped base ⟨rest, by simp⟩ ⟨more, by simp⟩
      hName hOther hLess hBefore
  · left
    apply Precedes.compare_eq_lt
    apply precedes_spellSegments
    refine Precedes.append_right ?_ _ _
    apply Segment.precedes_spelling hName hOther
    apply Segment.precedes_spellChar hLess
    intro hSeparator
    exact le_of_not_gt fun hBefore =>
      hCrosses ⟨hSeparator, hBefore⟩

/-
  Lists of names in order are spelled in order, or they
  cross.
-/
theorem compare_spellSegments_of_lt
    (hLess : compare names others = .lt) :
    compare (spellSegments names) (spellSegments others) =
        .lt
      ∨ Crosses names others := by
  rcases compare_eq_lt_iff.mp hLess with
    ⟨next, rest, rfl⟩ | hParts
  · left
    rw [compare_eq_lt_iff]
    left
    exact ⟨'/', Segment.spelling next ++ spellSegments rest,
      by simp [spellSegments]⟩
  · rcases hParts with
      ⟨base, name, other, hNames, ⟨rest, rfl⟩, ⟨more, rfl⟩⟩
    rw [Text.compare_toList, compare_eq_lt_iff] at hNames
    rw [List.append_assoc, List.append_assoc]
    rcases hNames with ⟨c, tail, hLonger⟩ | hParts
    · have hPrefix : name.toList ++ [c] <+: other.toList :=
        ⟨tail, by simp [hLonger]⟩
      exact compare_spellSegments_of_longer hPrefix
    · exact compare_spellSegments_of_precedes hParts

namespace Crosses

/- Lists of names that cross are in order. -/
theorem compare_eq_lt
    (hCrosses : Crosses names others) :
    compare names others = .lt := by
  cases hCrosses with
  | @longer base name below other c hNames hOthers hLonger =>
      rcases hLonger with ⟨tail, hTail⟩
      have hLess : compare name other = .lt := by
        rw [Text.compare_toList, compare_eq_lt_iff]
        exact Or.inl ⟨c, tail, by simp [← hTail]⟩
      have hFirst : base ++ [name] <+: names := by
        refine List.IsPrefix.trans ⟨[below], ?_⟩ hNames
        simp
      have hParts : Precedes names others :=
        ⟨base, name, other, hLess, hFirst, hOthers⟩
      exact hParts.compare_eq_lt
  | @escaped base name other front c hNames hOthers
      hName hOther hAfter =>
      have hChars : compare '/' c = .lt :=
        Text.compare_char_eq_lt_iff.mpr hAfter
      have hInner : Precedes name.toList other.toList :=
        ⟨front, '/', c, hChars, hName, hOther⟩
      have hLess : compare name other = .lt := by
        rw [Text.compare_toList]
        exact hInner.compare_eq_lt
      have hParts : Precedes names others :=
        ⟨base, name, other, hLess, hNames, hOthers⟩
      exact hParts.compare_eq_lt

/- Lists of names that cross are spelled in turned order. -/
theorem compare_spellSegments
    (hCrosses : Crosses names others) :
    compare (spellSegments others) (spellSegments names) =
      .lt := by
  apply Precedes.compare_eq_lt
  cases hCrosses with
  | longer base hNames hOthers hLonger hBefore =>
      rcases hNames with ⟨rest, rfl⟩
      rcases hOthers with ⟨more, rfl⟩
      rcases exists_spelling_longer hLonger with
        ⟨tail, hTail⟩
      rw [List.append_assoc, List.append_assoc]
      apply precedes_spellSegments
      rw [hTail, List.append_assoc, List.append_assoc]
      refine Precedes.append_left ?_ _
      exact Segment.precedes_before_separator hBefore _ _
  | escaped base hNames hOthers hName hOther hAfter
      hBefore =>
      rcases hNames with ⟨rest, rfl⟩
      rcases hOthers with ⟨more, rfl⟩
      rw [List.append_assoc, List.append_assoc]
      apply precedes_spellSegments
      refine Precedes.append_right ?_ _ _
      exact Segment.precedes_spelling hOther hName
        (Segment.precedes_spellChar_separator hAfter
          hBefore)

end Crosses

/- Lists of names in order are spelled so unless they cross. -/
private theorem compare_spellSegments_iff_of_lt
    (hLess : compare names others = .lt) :
    compare (spellSegments names) (spellSegments others) =
        .lt ↔
      ¬ Crosses names others ∧ ¬ Crosses others names := by
  have hOther : ¬ Crosses others names := by
    intro hCrosses
    rw [Std.OrientedCmp.gt_of_lt hCrosses.compare_eq_lt]
      at hLess
    cases hLess
  constructor
  · intro hSpelled
    refine ⟨?_, hOther⟩
    intro hCrosses
    rw [Std.OrientedCmp.gt_of_lt
      hCrosses.compare_spellSegments] at hSpelled
    cases hSpelled
  · intro hNot
    exact (compare_spellSegments_of_lt hLess).resolve_right
      hNot.1

/-
  Lists of names compare as what is spelled for them unless
  they cross.
-/
theorem compare_spellSegments_iff :
    compare (spellSegments names) (spellSegments others) =
        compare names others ↔
      ¬ Crosses names others ∧ ¬ Crosses others names := by
  cases hNames : compare names others with
  | lt =>
      exact compare_spellSegments_iff_of_lt hNames
  | eq =>
      have hSame : names = others :=
        Std.LawfulEqOrd.eq_of_compare hNames
      subst hSame
      have hNot : ¬ Crosses names names := by
        intro hCrosses
        rw [hCrosses.compare_eq_lt] at hNames
        cases hNames
      exact iff_of_true Std.ReflCmp.compare_self ⟨hNot, hNot⟩
  | gt =>
      rw [Std.OrientedCmp.gt_iff_lt, and_comm]
      exact compare_spellSegments_iff_of_lt
        (Std.OrientedCmp.lt_of_gt hNames)

end Path

end HierPath

------------------------------------------------------------
-- Texts In Order
------------------------------------------------------------

namespace HierPath

namespace Path

/- The root of all is written before what lies below it. -/
private theorem compare_root_spelling
    {name : String}
    (hName : Segment.isName name = true)
    (names : List String) :
    compare ['/'] (spellSegments (name :: names)) = .lt := by
  cases hSpelled : Segment.spelling name with
  | nil =>
      have hEmpty : name = "" :=
        Segment.spelling_injective hSpelled
      rw [hEmpty] at hName
      cases hName
  | cons c rest =>
      rw [spellSegments, List.flatMap_cons, hSpelled,
        compare_eq_lt_iff]
      exact Or.inl ⟨c, rest ++ spellSegments names, rfl⟩

/- Paths of one anchor compare as what is spelled below it. -/
theorem compare_spelling
    (anchor : Anchor)
    {names others : List String}
    (hNames : ∀ name ∈ names, Segment.isName name = true)
    (hOthers : ∀ name ∈ others, Segment.isName name = true) :
    compare (spelling ⟨anchor, names⟩)
        (spelling ⟨anchor, others⟩) =
      compare (spellSegments names)
        (spellSegments others) := by
  cases anchor with
  | relative =>
      rw [spelling_relative, spelling_relative]
      exact compare_append_left ['.'] _ _
  | absolute =>
      -- The sign of a root is written for no other path.
      cases names with
      | nil =>
          cases others with
          | nil =>
              rfl
          | cons other others =>
              exact compare_root_spelling
                (hOthers other List.mem_cons_self) others
      | cons name names =>
          cases others with
          | nil =>
              exact Std.OrientedCmp.gt_of_lt
                (compare_root_spelling
                  (hNames name List.mem_cons_self) names)
          | cons other others =>
              rfl

/- The sign of its anchor comes first in a spelled path. -/
private theorem exists_spelling_eq
    (p : Path) :
    ∃ rest, p.spelling = p.anchor.sign :: rest :=
  List.head?_eq_some_iff.mp (head?_spelling p)

/-
  Paths of different anchors are in turned order to what is
  spelled for them.
-/
private theorem compare_spelling_of_anchors
    {p q : Path}
    (hAnchors : p.anchor ≠ q.anchor) :
    compare p.spelling q.spelling = (compare p q).swap := by
  rcases exists_spelling_eq p with ⟨rest, hRest⟩
  rcases exists_spelling_eq q with ⟨more, hMore⟩
  rw [hRest, hMore, List.compare_cons_cons]
  rcases p with ⟨anchor, names⟩
  rcases q with ⟨other, others⟩
  cases anchor <;> cases other
  · exact absurd rfl hAnchors
  · rfl
  · rfl
  · exact absurd rfl hAnchors

/- Names that cross are in turned order to their spellings. -/
private theorem compare_spellSegments_of_crosses
    {names others : List String}
    (hCrosses : Crosses names others ∨ Crosses others names) :
    compare (spellSegments names) (spellSegments others) =
      (compare names others).swap := by
  rcases hCrosses with hCrosses | hCrosses
  · rw [hCrosses.compare_eq_lt]
    exact Std.OrientedCmp.gt_of_lt
      hCrosses.compare_spellSegments
  · rw [Std.OrientedCmp.gt_of_lt hCrosses.compare_eq_lt]
    exact hCrosses.compare_spellSegments

/-
  The bytes of two texts compare as their paths do exactly
  where the paths have one anchor and their names do not
  cross. Otherwise they compare the other way around.
-/
theorem texts_in_order_iff
    {p q : Path}
    (hp : p.Named)
    (hq : q.Named) :
    (compare (Text.bytes p.text) (Text.bytes q.text) =
          compare p q ↔
        p.anchor = q.anchor
          ∧ ¬ Crosses p.segments q.segments
          ∧ ¬ Crosses q.segments p.segments)
      ∧ (p.anchor ≠ q.anchor
          ∨ Crosses p.segments q.segments
          ∨ Crosses q.segments p.segments →
        compare (Text.bytes p.text) (Text.bytes q.text) =
          (compare p q).swap) := by
  rw [Text.compare_bytes, Text.compare_toList, toList_text,
    toList_text]
  by_cases hAnchor : p.anchor = q.anchor
  · rcases p with ⟨anchor, names⟩
    rcases q with ⟨other, others⟩
    cases hAnchor
    have hPaths :
        compare (⟨anchor, names⟩ : Path) ⟨anchor, others⟩ =
          compare names others :=
      compare_of_append anchor [] names others
    rw [compare_spelling anchor hp hq, hPaths]
    constructor
    · rw [compare_spellSegments_iff]
      exact (and_iff_right rfl).symm
    · intro hTurned
      exact compare_spellSegments_of_crosses
        (hTurned.resolve_left fun hOther => hOther rfl)
  · have hTurned := compare_spelling_of_anchors hAnchor
    refine ⟨iff_of_false ?_ ?_, fun _ => hTurned⟩
    · rw [hTurned]
      intro hSame
      have hEq : compare p q = .eq := by
        cases hCompare : compare p q with
        | eq => rfl
        | lt | gt =>
            rw [hCompare] at hSame
            cases hSame
      exact hAnchor
        (congrArg anchor (Std.LawfulEqOrd.eq_of_compare hEq))
    · intro hAgree
      exact hAnchor hAgree.1

/-
  A separator in a name keeps its place before a character
  after the escape mark, and loses it to a digit.
-/
theorem texts_in_order_iff_of_separator_in_name :
    let p : Path := ⟨.relative, ["a/b"]⟩
    let q : Path := ⟨.relative, ["a]"]⟩
    let r : Path := ⟨.relative, ["a0"]⟩
    p.Named ∧ q.Named ∧ r.Named
      ∧ ¬ Crosses p.segments q.segments
      ∧ Crosses p.segments r.segments
      ∧ compare (Text.bytes p.text) (Text.bytes r.text) =
        (compare p r).swap := by
  intro p q r
  have hp : p.Named := by
    simp [Named, Segment.isName, p]
  have hq : q.Named := by
    simp [Named, Segment.isName, q]
  have hr : r.Named := by
    simp [Named, Segment.isName, r]
  have hAgree :
      compare (Text.bytes p.text) (Text.bytes q.text) =
        compare p q := by
    decide +kernel
  have hName : ['a'] ++ ['/'] <+: "a/b".toList :=
    ⟨['b'], rfl⟩
  have hOther : ['a'] ++ ['0'] <+: "a0".toList :=
    ⟨[], rfl⟩
  have hCrosses : Crosses p.segments r.segments :=
    .escaped [] ⟨[], rfl⟩ ⟨[], rfl⟩ hName hOther
      (by decide) (by decide)
  have hNot := (texts_in_order_iff hp hq).1.mp hAgree
  have hTurned := (texts_in_order_iff hp hr).2
    (Or.inr (Or.inl hCrosses))
  exact ⟨hp, hq, hr, hNot.2.1, hCrosses, hTurned⟩

/-
  A path comes before one whose first name is longer by a
  blank, and its text comes after that of the other one.
-/
theorem order_differs_from_texts :
    parse "/a/b" = .ok ⟨.absolute, ["a", "b"]⟩
      ∧ parse "/a b" = .ok ⟨.absolute, ["a b"]⟩
      ∧ Named ⟨.absolute, ["a", "b"]⟩
      ∧ Named ⟨.absolute, ["a b"]⟩
      ∧ compare (⟨.absolute, ["a", "b"]⟩ : Path)
          ⟨.absolute, ["a b"]⟩ =
        .lt
      ∧ compare (Text.bytes (text ⟨.absolute, ["a", "b"]⟩))
          (Text.bytes (text ⟨.absolute, ["a b"]⟩)) =
        .gt := by
  refine ⟨by decide +kernel, by decide +kernel, ?_, ?_,
    by decide +kernel, by decide +kernel⟩
  · simp [Named, Segment.isName]
  · simp [Named, Segment.isName]

end Path

end HierPath
