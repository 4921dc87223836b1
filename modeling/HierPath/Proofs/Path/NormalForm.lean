import HierPath.Proofs.Path.Constructible

/-
  The texts that are the text of the path they read as.

  Such a text is the sign of an anchor, alone or in front of
  levels with a separator between each two of them. A level
  escapes the separators and escape marks in it and nothing
  else, and it is none of the texts that only move. It does
  not end inside an escape, so the separators around it are
  bare.

  The grammar is said without a reader and a printer. Its
  levels are exactly the spelled names, and from this its
  texts are exactly the texts of paths.

  Key definitions include:
    * `Segment.EscapesMarks`
    * `Segment.IsLevel`
    * `Path.IsNormal`

  Key theorems include:
    * `Segment.escapesMarks_iff`
    * `Segment.isLevel_iff`
    * `Path.spellSegments_cons`
    * `Path.text_fixed_iff_isNormal`
-/

------------------------------------------------------------
-- Levels
------------------------------------------------------------

namespace HierPath

namespace Segment

/-
  Every separator in the text is escaped, and an escape mark
  that is not itself escaped stands before an escape mark or
  a separator.
-/
structure EscapesMarks
    (chars : List Char) : Prop where
  separator :
    ∀ before after, chars = before ++ '/' :: after →
      Pieces.isOpenAfter false before = true
  escape :
    ∀ before after, chars = before ++ '\\' :: after →
      Pieces.isOpenAfter false before = false →
        after.head? = some '\\' ∨ after.head? = some '/'

/- The text stands for one level of a path, and only so. -/
structure IsLevel
    (chars : List Char) : Prop extends
    EscapesMarks chars where
  not_empty : chars ≠ []
  not_dot : chars ≠ ['.']
  not_dots : chars ≠ ['.', '.']

end Segment

end HierPath

------------------------------------------------------------
-- Escaped Marks
------------------------------------------------------------

namespace HierPath

namespace Segment

/- There is nothing to escape in an empty text. -/
theorem escapesMarks_nil : EscapesMarks [] where
  separator := by simp
  escape := by simp

/- A character without a meaning is not to be escaped. -/
theorem escapesMarks_plain
    {c : Char}
    (hPlain : isMark c = false)
    {rest : List Char} :
    EscapesMarks (c :: rest) ↔ EscapesMarks rest := by
  constructor
  · intro hMarks
    constructor
    · intro before after hRest
      rw [← Pieces.isOpenAfter_plain hPlain]
      exact hMarks.separator (c :: before) after
        (congrArg (c :: ·) hRest)
    · intro before after hRest hOpen
      rw [← Pieces.isOpenAfter_plain hPlain] at hOpen
      exact hMarks.escape (c :: before) after
        (congrArg (c :: ·) hRest) hOpen
  · intro hMarks
    constructor
    · intro before after hChars
      cases before with
      | nil =>
          cases hChars
          cases hPlain
      | cons first before =>
          cases hChars
          rw [Pieces.isOpenAfter_plain hPlain]
          exact hMarks.separator before after rfl
    · intro before after hChars hOpen
      cases before with
      | nil =>
          cases hChars
          cases hPlain
      | cons first before =>
          cases hChars
          rw [Pieces.isOpenAfter_plain hPlain] at hOpen
          exact hMarks.escape before after rfl hOpen

/- A mark may be escaped. -/
theorem escapesMarks_escaped
    {c : Char}
    (hMark : isMark c = true)
    {rest : List Char} :
    EscapesMarks ('\\' :: c :: rest) ↔
      EscapesMarks rest := by
  constructor
  · intro hMarks
    constructor
    · intro before after hRest
      rw [← Pieces.isOpenAfter_escaped c]
      exact hMarks.separator ('\\' :: c :: before) after
        (congrArg ('\\' :: c :: ·) hRest)
    · intro before after hRest hOpen
      rw [← Pieces.isOpenAfter_escaped c] at hOpen
      exact hMarks.escape ('\\' :: c :: before) after
        (congrArg ('\\' :: c :: ·) hRest) hOpen
  · intro hMarks
    -- The place is the escape mark in front, the character
    -- that it escapes, or one in the rest.
    constructor
    · intro before after hChars
      match before with
      | [] =>
          cases hChars
      | [_] =>
          cases hChars
          rfl
      | _ :: _ :: before =>
          cases hChars
          rw [Pieces.isOpenAfter_escaped]
          exact hMarks.separator before after rfl
    · intro before after hChars hOpen
      match before with
      | [] =>
          cases hChars
          simpa [isMark, or_comm] using hMark
      | [_] =>
          cases hChars
          cases hOpen
      | _ :: _ :: before =>
          cases hChars
          rw [Pieces.isOpenAfter_escaped] at hOpen
          exact hMarks.escape before after rfl hOpen

/-
  A text escapes its marks and nothing else exactly when it
  is spelled character by character.
-/
theorem escapesMarks_iff
    {chars : List Char} :
    EscapesMarks chars ↔
      ∃ written : List Char,
        written.flatMap spellChar = chars := by
  constructor
  · intro hMarks
    induction chars using Pieces.cut.induct with
    | case1 =>
        exact ⟨[], rfl⟩
    | case2 =>
        have hNext := hMarks.escape [] [] rfl rfl
        simp at hNext
    | case3 c rest ih =>
        have hMark : isMark c = true := by
          have hNext := hMarks.escape [] (c :: rest) rfl rfl
          simpa [isMark, or_comm] using hNext
        rcases ih ((escapesMarks_escaped hMark).mp hMarks)
          with ⟨written, rfl⟩
        exact ⟨c :: written, by simp [spellChar, hMark]⟩
    | case4 rest _ =>
        have hOpen := hMarks.separator [] rest rfl
        cases hOpen
    | case5 c rest hAlone hEscape hBreak ih =>
        have hPlain := Pieces.isMark_eq_false_of_cut
          hAlone hEscape hBreak
        rcases ih ((escapesMarks_plain hPlain).mp hMarks)
          with ⟨written, rfl⟩
        exact ⟨c :: written, by simp [spellChar, hPlain]⟩
  · rintro ⟨written, rfl⟩
    induction written with
    | nil =>
        exact escapesMarks_nil
    | cons c rest ih =>
        rw [List.flatMap_cons, spellChar]
        cases hMark : isMark c with
        | false => exact (escapesMarks_plain hMark).mpr ih
        | true => exact (escapesMarks_escaped hMark).mpr ih

/- Levels are spelled names. -/
theorem isLevel_iff
    {chars : List Char} :
    IsLevel chars ↔
      ∃ name, isName name = true ∧ spelling name = chars := by
  constructor
  · intro hLevel
    rcases escapesMarks_iff.mp hLevel.toEscapesMarks with
      ⟨written, hWritten⟩
    have hSpelled :
        spelling (String.ofList written) = chars := by
      rw [spelling, String.toList_ofList, hWritten]
    refine ⟨String.ofList written,
      isName_iff.mpr ⟨?_, ?_, ?_⟩, hSpelled⟩
    · intro hName
      exact hLevel.not_empty (by rw [← hSpelled, hName]; rfl)
    · intro hName
      exact hLevel.not_dot (by rw [← hSpelled, hName]; rfl)
    · intro hName
      exact hLevel.not_dots (by rw [← hSpelled, hName]; rfl)
  · rintro ⟨name, hName, rfl⟩
    rcases isName_iff.mp hName with
      ⟨hEmpty, hDot, hDots⟩
    have hOther
        {other : String}
        (hNot : name ≠ other) :
        spelling name ≠ spelling other :=
      spelling_injective.ne hNot
    exact
      { toEscapesMarks := escapesMarks_iff.mpr ⟨_, rfl⟩
        not_empty := hOther hEmpty
        not_dot := hOther hDot
        not_dots := hOther hDots }

end Segment

end HierPath

------------------------------------------------------------
-- Normal Texts
------------------------------------------------------------

namespace HierPath

namespace Path

/-
  The text is the sign of an anchor, or the sign is followed
  by levels that separators keep apart. The separator is the
  sign of the absolute anchor and comes after the other one.
-/
def IsNormal
    (text : String) : Prop :=
  text = "/" ∨ text = "."
    ∨ ∃ levels : List (List Char),
      levels ≠ []
        ∧ (∀ level ∈ levels, Segment.IsLevel level)
        ∧ (text.toList = '/' :: ['/'].intercalate levels
          ∨ text.toList =
            '.' :: '/' :: ['/'].intercalate levels)

/- Separators before names stand in front and between. -/
theorem spellSegments_cons
    (name : String)
    (names : List String) :
    spellSegments (name :: names) =
      '/' :: ['/'].intercalate
        ((name :: names).map Segment.spelling) := by
  induction names generalizing name with
  | nil =>
      simp [spellSegments]
  | cons next names ih =>
      have hRest := ih next
      unfold spellSegments at hRest ⊢
      rw [List.flatMap_cons, hRest]
      simp [List.intercalate_cons_cons]

/- Levels are the spelled names of a list. -/
private theorem exists_names_of_levels
    {levels : List (List Char)}
    (hLevels : ∀ level ∈ levels, Segment.IsLevel level) :
    ∃ names : List String,
      (∀ name ∈ names, Segment.isName name = true)
        ∧ names.map Segment.spelling = levels := by
  induction levels with
  | nil =>
      exact ⟨[], by simp, rfl⟩
  | cons level rest ih =>
      simp only [List.mem_cons, forall_eq_or_imp] at hLevels
      rcases Segment.isLevel_iff.mp hLevels.1 with
        ⟨name, hName, rfl⟩
      rcases ih hLevels.2 with ⟨names, hNames, rfl⟩
      exact ⟨name :: names, by simpa using ⟨hName, hNames⟩,
        rfl⟩

/- The text of a path of names is normal. -/
theorem isNormal_text
    {p : Path}
    (hNamed : p.Named) :
    IsNormal p.text := by
  rcases p with ⟨anchor, segments⟩
  cases segments with
  | nil =>
      cases anchor with
      | absolute => exact Or.inl rfl
      | relative => exact Or.inr (Or.inl rfl)
  | cons name names =>
      refine Or.inr (Or.inr
        ⟨(name :: names).map Segment.spelling, by simp, ?_,
          ?_⟩)
      · intro level hLevel
        rcases List.mem_map.mp hLevel with
          ⟨other, hOther, rfl⟩
        exact Segment.isLevel_iff.mpr
          ⟨other, hNamed other hOther, rfl⟩
      · rw [toList_text, ← spellSegments_cons]
        cases anchor with
        | absolute => exact Or.inl rfl
        | relative => exact Or.inr rfl

/- A normal text is the text of a path of names. -/
theorem exists_named_of_isNormal
    {raw : String}
    (hNormal : IsNormal raw) :
    ∃ p : Path, p.Named ∧ p.text = raw := by
  rcases hNormal with
    rfl | rfl | ⟨levels, hSome, hLevels, hRaw⟩
  · exact ⟨root, by simp [Named, root], rfl⟩
  · exact ⟨relativeRoot, by simp [Named, relativeRoot], rfl⟩
  · rcases exists_names_of_levels hLevels with
      ⟨names, hNames, rfl⟩
    cases names with
    | nil =>
        exact absurd rfl hSome
    | cons name names =>
        rw [← spellSegments_cons] at hRaw
        rcases hRaw with hRaw | hRaw
        · refine ⟨⟨.absolute, name :: names⟩, hNames, ?_⟩
          rw [← String.toList_inj, hRaw, toList_text]
          rfl
        · refine ⟨⟨.relative, name :: names⟩, hNames, ?_⟩
          rw [← String.toList_inj, hRaw, toList_text]
          rfl

/-
  A text reads as a path that is written as this text exactly
  when it is normal.
-/
theorem text_fixed_iff_isNormal
    (raw : String) :
    (∃ p, parse raw = .ok p ∧ p.text = raw) ↔
      IsNormal raw := by
  constructor
  · rintro ⟨p, hRead, rfl⟩
    exact isNormal_text (named_of_parseIn (by simp) hRead)
  · intro hNormal
    rcases exists_named_of_isNormal hNormal with
      ⟨p, hNamed, rfl⟩
    exact ⟨p, parseIn_text hNamed (Or.inr rfl), rfl⟩

end Path

end HierPath
