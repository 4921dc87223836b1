import HierPath.Text.Blank
import Mathlib.Data.List.TakeWhile

/-
  What the lines of a text are, and what trimming leaves.

  A line is told by where it stands: it starts at the front
  of the text or after a line feed, it ends before a line
  feed, and its number is one more than the line feeds in
  front of it. A carriage return right before a line feed
  belongs to the end of the line. What comes after the last
  line feed is a line unless it is empty.

  Cutting a text at its line feeds leaves the carriage
  returns in the lines, and an empty line at the end. Both
  make no difference to what trimming leaves of the lines
  that are not blank.

  Key definitions include:
    * `Text.IsTrimmed`
    * `Text.IsLine`

  Key theorems include:
    * `Text.isTrimmed_iff`
    * `Text.exists_isLine_iff`
    * `Text.lines_intercalate`
    * `Text.lines_flatMap_feed`
-/

------------------------------------------------------------
-- Trimmed Texts
------------------------------------------------------------

namespace HierPath

namespace Text

/-
  The text is what stands between blanks at both ends, and
  has no blank at an end itself.
-/
structure IsTrimmed
    (chars text : List Char) : Prop where
  between_blanks :
    ∃ before after,
      chars = before ++ text ++ after
        ∧ (∀ c ∈ before, isBlank c = true)
        ∧ (∀ c ∈ after, isBlank c = true)
  first_not_blank : ∀ c ∈ text.head?, isBlank c = false
  last_not_blank : ∀ c ∈ text.getLast?, isBlank c = false

/- Blanks are dropped up to the first other character. -/
private theorem dropWhile_isBlank
    {blanks rest : List Char}
    (hBlanks : ∀ c ∈ blanks, isBlank c = true)
    (hRest : ∀ c ∈ rest.head?, isBlank c = false) :
    (blanks ++ rest).dropWhile isBlank = rest := by
  rw [List.dropWhile_append_of_pos hBlanks]
  cases rest with
  | nil =>
      rfl
  | cons c rest =>
      have hFirst : isBlank c = false := hRest c rfl
      simp [hFirst]

/- What trimming leaves is trimmed. -/
private theorem isTrimmed_trim
    (chars : List Char) :
    IsTrimmed chars (trim chars) := by
  let rest := chars.dropWhile isBlank
  let turned := rest.reverse.dropWhile isBlank
  have hRest :
      rest =
        trim chars
          ++ (rest.reverse.takeWhile isBlank).reverse := by
    rw [trim, ← List.reverse_append,
      List.takeWhile_append_dropWhile, List.reverse_reverse]
  refine
    { between_blanks := ?_
      first_not_blank := ?_
      last_not_blank := ?_ }
  · refine ⟨chars.takeWhile isBlank,
      (rest.reverse.takeWhile isBlank).reverse, ?_, ?_, ?_⟩
    · rw [List.append_assoc, ← hRest,
        List.takeWhile_append_dropWhile]
    · intro c hc
      exact List.mem_takeWhile_imp hc
    · intro c hc
      exact List.mem_takeWhile_imp (List.mem_reverse.mp hc)
  · intro c hc
    have hFirst : rest.head? = some c := by
      rw [hRest, List.head?_append, hc]
      rfl
    have hNot := List.head?_dropWhile_not isBlank chars
    rw [show chars.dropWhile isBlank = rest from rfl,
      hFirst] at hNot
    exact hNot
  · intro c hc
    have hFirst : turned.head? = some c := by
      rw [trim, List.getLast?_reverse] at hc
      exact hc
    have hNot := List.head?_dropWhile_not isBlank rest.reverse
    rw [show rest.reverse.dropWhile isBlank = turned from rfl,
      hFirst] at hNot
    exact hNot

/- Trimming leaves exactly the trimmed text. -/
theorem isTrimmed_iff
    (chars text : List Char) :
    IsTrimmed chars text ↔ trim chars = text := by
  constructor
  · intro hTrimmed
    rcases hTrimmed with
      ⟨⟨before, after, rfl, hBefore, hAfter⟩, hFirst, hLast⟩
    have hTurned :
        (text ++ after).reverse.dropWhile isBlank =
          text.reverse := by
      rw [List.reverse_append]
      apply dropWhile_isBlank
      · simpa using hAfter
      · simpa using hLast
    cases text with
    | nil =>
        have hBlank :
            (before ++ [] ++ after).dropWhile isBlank =
              [] := by
          rw [List.dropWhile_eq_nil_iff]
          intro c hc
          rw [List.append_nil] at hc
          exact (List.mem_append.mp hc).elim
            (hBefore c) (hAfter c)
        rw [trim, hBlank]
        rfl
    | cons first text =>
        have hFront :
            (before ++ (first :: text ++ after)).dropWhile
                isBlank =
              first :: text ++ after :=
          dropWhile_isBlank hBefore hFirst
        rw [trim, List.append_assoc, hFront, hTurned,
          List.reverse_reverse]
  · rintro rfl
    exact isTrimmed_trim chars

/- A carriage return at the end is trimmed off. -/
theorem trim_concat_return
    (chars : List Char) :
    trim (chars ++ ['\r']) = trim chars := by
  rw [← isTrimmed_iff]
  rcases isTrimmed_trim chars with
    ⟨⟨before, after, hChars, hBefore, hAfter⟩, hFirst, hLast⟩
  refine ⟨⟨before, after ++ ['\r'], ?_, hBefore, ?_⟩, hFirst,
    hLast⟩
  · rw [← List.append_assoc, ← hChars]
  · intro c hc
    rcases List.mem_append.mp hc with hc | hc
    · exact hAfter c hc
    · rw [List.mem_singleton.mp hc]
      decide

end Text

end HierPath

------------------------------------------------------------
-- Lines By Their Places
------------------------------------------------------------

namespace HierPath

namespace Text

/- The text before a place ends where a line can start. -/
def StartsLine
    (before : List Char) : Prop :=
  before = [] ∨ before.getLast? = some '\n'

/- The line has its end where the text after it starts. -/
def EndsLine
    (line after : List Char) : Prop :=
  (after = [] ∧ line ≠ [])
    ∨ ['\r', '\n'] <+: after
    ∨ (['\n'] <+: after ∧ line.getLast? ≠ some '\r')

/- The line of a number, counted from one. -/
def IsLine
    (chars : List Char)
    (number : Nat)
    (line : List Char) : Prop :=
  ∃ before after,
    chars = before ++ line ++ after
      ∧ StartsLine before
      ∧ number = before.count '\n' + 1
      ∧ '\n' ∉ line
      ∧ EndsLine line after

end Text

end HierPath

------------------------------------------------------------
-- Cutting At Line Feeds
------------------------------------------------------------

namespace HierPath

namespace Text

/- A line feed in front is an empty line of its own. -/
private theorem lines_feed
    (rest : List Char) :
    lines ('\n' :: rest) = [] :: lines rest :=
  rfl

/- Any other character goes to the front of a line. -/
private theorem lines_cons
    {c : Char}
    (hOther : c ≠ '\n')
    {rest line : List Char}
    {others : List (List Char)}
    (hRest : lines rest = line :: others) :
    lines (c :: rest) = (c :: line) :: others := by
  have hPut : lines (c :: rest) = putLine c (lines rest) :=
    rfl
  rw [hPut, hRest, putLine, if_neg hOther]

/- Every text has a first line. -/
private theorem exists_lines_eq_cons
    (chars : List Char) :
    ∃ line others, lines chars = line :: others := by
  induction chars with
  | nil =>
      exact ⟨[], [], rfl⟩
  | cons c rest ih =>
      rcases ih with ⟨line, others, hRest⟩
      by_cases hFeed : c = '\n'
      · subst hFeed
        exact ⟨[], lines rest, rfl⟩
      · exact ⟨c :: line, others, lines_cons hFeed hRest⟩

/- Texts on both sides of a line feed are cut on their own. -/
private theorem lines_append_feed
    (before rest : List Char) :
    lines (before ++ '\n' :: rest) =
      lines before ++ lines rest := by
  induction before with
  | nil =>
      rfl
  | cons c before ih =>
      by_cases hFeed : c = '\n'
      · subst hFeed
        rw [List.cons_append, lines_feed, lines_feed, ih]
        rfl
      · rcases exists_lines_eq_cons before with
          ⟨line, others, hLines⟩
        rw [hLines] at ih
        rw [List.cons_append, lines_cons hFeed ih,
          lines_cons hFeed hLines]
        rfl

/- A text without line feeds is one line. -/
private theorem lines_of_not_mem
    {chars : List Char}
    (hFeed : '\n' ∉ chars) :
    lines chars = [chars] := by
  induction chars with
  | nil =>
      rfl
  | cons c rest ih =>
      rcases List.ne_and_not_mem_of_not_mem_cons hFeed with
        ⟨hOther, hRest⟩
      exact lines_cons hOther.symm (ih hRest)

/- There is one line more than there are line feeds. -/
private theorem length_lines
    (chars : List Char) :
    (lines chars).length = chars.count '\n' + 1 := by
  induction chars with
  | nil =>
      rfl
  | cons c rest ih =>
      by_cases hFeed : c = '\n'
      · subst hFeed
        rw [lines_feed, List.length_cons, ih,
          List.count_cons_self]
      · rcases exists_lines_eq_cons rest with
          ⟨line, others, hLines⟩
        rw [lines_cons hFeed hLines,
          List.count_cons_of_ne hFeed, ← ih, hLines]
        rfl

/- Nothing stands before the first line. -/
private theorem StartsLine.eq_nil
    {before : List Char}
    (hBefore : StartsLine before)
    (hCount : before.count '\n' = 0) :
    before = [] := by
  rcases hBefore with hNone | hLast
  · exact hNone
  · have hFeed : '\n' ∈ before :=
      List.mem_of_getLast? hLast
    exact absurd hFeed (List.count_eq_zero.mp hCount)

/- Line starts are told by the last character before them. -/
private theorem StartsLine.cons
    {before : List Char}
    (hLast : before.getLast? = some '\n')
    (c : Char) :
    StartsLine (c :: before) := by
  right
  rw [List.getLast?_cons, hLast]
  rfl

/-
  A cut piece has its place: it starts where a line starts,
  as many line feeds stand before it as pieces, and it goes
  on to the next line feed.
-/
private theorem exists_place_of_getElem?
    {chars line : List Char}
    {i : Nat}
    (hLine : (lines chars)[i]? = some line) :
    ∃ before after,
      chars = before ++ line ++ after
        ∧ StartsLine before ∧ i = before.count '\n'
        ∧ '\n' ∉ line
        ∧ (after = [] ∨ ['\n'] <+: after) := by
  induction chars generalizing i line with
  | nil =>
      cases i with
      | zero =>
          cases hLine
          exact ⟨[], [], rfl, Or.inl rfl, rfl, by simp,
            Or.inl rfl⟩
      | succ i =>
          simp [lines] at hLine
  | cons c rest ih =>
      by_cases hFeed : c = '\n'
      · subst hFeed
        rw [lines_feed] at hLine
        cases i with
        | zero =>
            cases hLine
            exact ⟨[], '\n' :: rest, rfl, Or.inl rfl, rfl,
              by simp, Or.inr ⟨rest, rfl⟩⟩
        | succ i =>
            rcases ih hLine with
              ⟨before, after, rfl, hBefore, hCount, hPlain,
                hAfter⟩
            refine ⟨'\n' :: before, after, rfl, ?_, ?_, hPlain,
              hAfter⟩
            · rcases hBefore with rfl | hLast
              · exact Or.inr rfl
              · exact .cons hLast '\n'
            · rw [List.count_cons_self, hCount]
      · rcases exists_lines_eq_cons rest with
          ⟨first, others, hRest⟩
        rw [lines_cons hFeed hRest] at hLine
        cases i with
        | zero =>
            cases hLine
            have hFirst : (lines rest)[0]? = some first := by
              rw [hRest]
              rfl
            rcases ih hFirst with
              ⟨before, after, rfl, hBefore, hCount, hPlain,
                hAfter⟩
            rcases hBefore.eq_nil hCount.symm with rfl
            refine ⟨[], after, rfl, Or.inl rfl, rfl, ?_,
              hAfter⟩
            exact List.not_mem_cons_of_ne_of_not_mem
              (Ne.symm hFeed) hPlain
        | succ i =>
            have hOthers :
                (lines rest)[i + 1]? = some line := by
              rw [hRest]
              exact hLine
            rcases ih hOthers with
              ⟨before, after, rfl, hBefore, hCount, hPlain,
                hAfter⟩
            refine ⟨c :: before, after, rfl, ?_, ?_, hPlain,
              hAfter⟩
            · rcases hBefore with rfl | hLast
              · cases hCount
              · exact .cons hLast c
            · rw [List.count_cons_of_ne hFeed, hCount]

/- What has the place of a cut piece is that piece. -/
private theorem getElem?_lines_of_place
    {before line after : List Char}
    (hBefore : StartsLine before)
    (hPlain : '\n' ∉ line)
    (hAfter : after = [] ∨ ['\n'] <+: after) :
    (lines (before ++ line ++ after))[before.count '\n']? =
      some line := by
  have hFirst : (lines (line ++ after))[0]? = some line := by
    rcases hAfter with rfl | ⟨rest, rfl⟩
    · rw [List.append_nil, lines_of_not_mem hPlain]
      rfl
    · rw [List.singleton_append, lines_append_feed,
        lines_of_not_mem hPlain]
      rfl
  rw [List.append_assoc]
  rcases hBefore with rfl | hLast
  · exact hFirst
  · rcases List.getLast?_eq_some_iff.mp hLast with
      ⟨above, rfl⟩
    have hCount :
        (above ++ ['\n']).count '\n' =
          (lines above).length := by
      rw [length_lines, List.count_append]
      rfl
    rw [hCount, List.append_assoc, List.singleton_append,
      lines_append_feed,
      List.getElem?_append_right (Nat.le_refl _),
      Nat.sub_self]
    exact hFirst

end Text

end HierPath

------------------------------------------------------------
-- Trimmed Lines
------------------------------------------------------------

namespace HierPath

namespace Text

/-
  What trimming leaves of the lines of a text is what it
  leaves of the cut pieces, as far as it leaves anything.
-/
theorem exists_isLine_iff
    {chars text : List Char}
    (hText : text ≠ [])
    (i : Nat) :
    (∃ line, IsLine chars (i + 1) line
        ∧ IsTrimmed line text) ↔
      ∃ piece, (lines chars)[i]? = some piece
        ∧ trim piece = text := by
  constructor
  · intro hLine
    rcases hLine with
      ⟨line, ⟨before, after, rfl, hBefore, hNumber, hPlain,
        hEnd⟩, hTrimmed⟩
    have hTrim := (isTrimmed_iff line text).mp hTrimmed
    have hCount : i = before.count '\n' :=
      Nat.succ.inj hNumber
    subst hCount
    rcases hEnd with ⟨hAfter, _⟩ | hReturn | ⟨hFeed, _⟩
    · exact ⟨line, getElem?_lines_of_place hBefore hPlain
        (Or.inl hAfter), hTrim⟩
    · rcases hReturn with ⟨rest, rfl⟩
      -- The carriage return stays with the piece.
      refine ⟨line ++ ['\r'], ?_, ?_⟩
      · have hPiece : '\n' ∉ line ++ ['\r'] := by
          simpa using hPlain
        have hPlace := getElem?_lines_of_place hBefore hPiece
          (Or.inr ⟨rest, rfl⟩ :
            ['\n'] ++ rest = [] ∨ ['\n'] <+: ['\n'] ++ rest)
        simpa using hPlace
      · rw [trim_concat_return, hTrim]
    · exact ⟨line, getElem?_lines_of_place hBefore hPlain
        (Or.inr hFeed), hTrim⟩
  · intro hPiece
    rcases hPiece with ⟨piece, hPiece, rfl⟩
    rcases exists_place_of_getElem? hPiece with
      ⟨before, after, rfl, hBefore, rfl, hPlain, hAfter⟩
    have hSome : piece ≠ [] := by
      rintro rfl
      exact hText rfl
    rcases hAfter with rfl | hFeed
    · refine ⟨piece, ⟨before, [], rfl, hBefore, rfl, hPlain,
        Or.inl ⟨rfl, hSome⟩⟩, ?_⟩
      exact (isTrimmed_iff piece _).mpr rfl
    · by_cases hReturn : piece.getLast? = some '\r'
      · rcases List.getLast?_eq_some_iff.mp hReturn with
          ⟨line, rfl⟩
        rcases hFeed with ⟨rest, rfl⟩
        refine ⟨line, ⟨before, '\r' :: '\n' :: rest, ?_,
          hBefore, rfl, ?_, Or.inr (Or.inl ⟨rest, rfl⟩)⟩, ?_⟩
        · simp
        · intro hLine
          exact hPlain (List.mem_append_left _ hLine)
        · rw [trim_concat_return]
          exact (isTrimmed_iff line _).mpr rfl
      · refine ⟨piece, ⟨before, after, rfl, hBefore, rfl,
          hPlain, Or.inr (Or.inr ⟨hFeed, hReturn⟩)⟩, ?_⟩
        exact (isTrimmed_iff piece _).mpr rfl

end Text

end HierPath

------------------------------------------------------------
-- Lines Put Together
------------------------------------------------------------

namespace HierPath

namespace Text

/- Lines that are put together by line feeds are cut again. -/
theorem lines_intercalate
    {pieces : List (List Char)}
    (hSome : pieces ≠ [])
    (hPlain : ∀ piece ∈ pieces, '\n' ∉ piece) :
    lines (['\n'].intercalate pieces) = pieces := by
  induction pieces with
  | nil =>
      exact absurd rfl hSome
  | cons piece rest ih =>
      have hPiece := hPlain piece List.mem_cons_self
      cases rest with
      | nil =>
          rw [List.intercalate_singleton,
            lines_of_not_mem hPiece]
      | cons next rest =>
          have hRest := ih (List.cons_ne_nil next rest)
            fun other hOther =>
              hPlain other (List.mem_cons_of_mem piece hOther)
          rw [List.intercalate_cons_cons, List.append_assoc,
            List.singleton_append, lines_append_feed,
            lines_of_not_mem hPiece, hRest]
          rfl

/- A line feed after every line leaves an empty last line. -/
theorem lines_flatMap_feed
    {pieces : List (List Char)}
    (hPlain : ∀ piece ∈ pieces, '\n' ∉ piece) :
    lines (pieces.flatMap (· ++ ['\n'])) =
      pieces ++ [[]] := by
  induction pieces with
  | nil =>
      rfl
  | cons piece rest ih =>
      have hRest := ih fun other hOther =>
        hPlain other (List.mem_cons_of_mem piece hOther)
      rw [List.flatMap_cons, List.append_assoc,
        List.singleton_append, lines_append_feed, hRest,
        lines_of_not_mem
          (hPlain piece List.mem_cons_self)]
      rfl

end Text

end HierPath
