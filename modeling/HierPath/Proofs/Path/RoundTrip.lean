import HierPath.Proofs.Path.Reading

/-
  Reading a spelled path gives the path back.

  This holds for paths whose segments are names. Escapes
  keep the marks in a name from being read as separators,
  so the pieces of a spelled path are its segments, and a
  piece that is a name is a step down to it.

  Escaping adds nothing but marks, and names that differ
  are spelled differently.

  Key definitions include:
    * `Path.Named`

  Key theorems include:
    * `Segment.isName_iff`
    * `Segment.spelling_injective`
    * `Path.spelling_below`
    * `Path.mem_spelling`
    * `Path.moves_text`
    * `Path.parseIn_text`
-/

------------------------------------------------------------
-- Characters Of Spelled Paths
------------------------------------------------------------

namespace HierPath

namespace Segment

/- Texts that can be names are told by what they are not. -/
theorem isName_iff
    {text : String} :
    isName text = true ↔
      text ≠ "" ∧ text ≠ "." ∧ text ≠ ".." := by
  simp [isName, and_assoc]

/- Names that are spelled alike are the same. -/
theorem spelling_injective :
    Function.Injective spelling := by
  intro name other hSame
  have hPieces := congrArg Pieces.ofText hSame
  rw [Pieces.ofText_spelling, Pieces.ofText_spelling]
    at hPieces
  exact String.toList_injective (List.singleton_inj.mp hPieces)

/- Escaping a name adds marks to it. -/
theorem mem_spelling
    {name : String}
    {c : Char}
    (hChar : c ∈ spelling name) :
    c ∈ name.toList ∨ c = '\\' := by
  rcases List.mem_flatMap.mp hChar with
    ⟨written, hWritten, hSpelled⟩
  unfold spellChar at hSpelled
  split at hSpelled
  next =>
    rcases List.mem_cons.mp hSpelled with rfl | hSame
    · exact Or.inr rfl
    · rw [List.mem_singleton.mp hSame]
      exact Or.inl hWritten
  next =>
    rw [List.mem_singleton.mp hSpelled]
    exact Or.inl hWritten

end Segment

namespace Path

/- A relative path has its sign in front of its names. -/
theorem spelling_relative
    (names : List String) :
    spelling ⟨.relative, names⟩ =
      '.' :: spellSegments names := by
  cases names <;> rfl

/- An absolute path is its names, unless there are none. -/
theorem spelling_absolute
    {names : List String}
    (hNames : names ≠ []) :
    spelling ⟨.absolute, names⟩ = spellSegments names := by
  cases names with
  | nil => exact absurd rfl hNames
  | cons name names => rfl

/-
  One more name is spelled after a separator. The root of
  all is then left out, since its sign is the separator.
-/
theorem spelling_below
    (p : Path)
    (name : String) :
    (p.below name).spelling =
      (if p = root then [] else p.spelling)
        ++ '/' :: Segment.spelling name := by
  have hSpelled
      (names : List String) :
      spellSegments (names ++ [name]) =
        spellSegments names
          ++ '/' :: Segment.spelling name := by
    simp [spellSegments]
  rcases p with ⟨anchor, names⟩
  cases anchor with
  | relative =>
      have hOther : (⟨.relative, names⟩ : Path) ≠ root := by
        simp [root]
      rw [if_neg hOther, below, spelling_relative,
        spelling_relative, hSpelled, List.cons_append]
  | absolute =>
      rw [below, spelling_absolute (by simp), hSpelled]
      by_cases hRoot : names = []
      · rw [hRoot]
        rfl
      · have hOther :
            (⟨.absolute, names⟩ : Path) ≠ root := by
          simpa [root] using hRoot
        rw [if_neg hOther, spelling_absolute hRoot]

/- A spelled path has its names, marks and a sign. -/
theorem mem_spelling
    {p : Path}
    {c : Char}
    (hChar : c ∈ p.spelling) :
    c ∈ ['/', '.', '\\']
      ∨ ∃ name ∈ p.segments, c ∈ name.toList := by
  have hNames
      (names : List String)
      (hSpelled : c ∈ spellSegments names) :
      c ∈ ['/', '.', '\\']
        ∨ ∃ name ∈ names, c ∈ name.toList := by
    rcases List.mem_flatMap.mp hSpelled with
      ⟨name, hName, hHere⟩
    rcases List.mem_cons.mp hHere with rfl | hHere
    · simp
    · rcases Segment.mem_spelling hHere with hOwn | rfl
      · exact Or.inr ⟨name, hName, hOwn⟩
      · simp
  unfold spelling at hChar
  split at hChar
  next anchor =>
    rw [List.mem_singleton.mp hChar]
    cases anchor <;> simp [Anchor.sign]
  next names _ =>
    exact hNames names hChar
  next names _ =>
    rcases List.mem_cons.mp hChar with rfl | hChar
    · simp
    · exact hNames names hChar

end Path

end HierPath

------------------------------------------------------------
-- Reading Spelled Paths
------------------------------------------------------------

namespace HierPath

namespace Path

/- Every segment of the path is a name. -/
def Named
    (p : Path) : Prop :=
  ∀ name ∈ p.segments, Segment.isName name = true

/- The characters of a text are those of the spelling. -/
theorem toList_text
    (p : Path) :
    p.text.toList = p.spelling :=
  String.toList_ofList

/- A spelled path starts with the sign of its anchor. -/
theorem head?_spelling
    (p : Path) :
    p.spelling.head? = some p.anchor.sign := by
  rcases p with ⟨anchor, segments⟩
  cases segments with
  | nil =>
      cases anchor <;> rfl
  | cons name names =>
      cases anchor <;> simp [spelling, spellSegments,
        Anchor.sign]

/- A text is never empty. -/
theorem text_ne_empty
    (p : Path) :
    p.text ≠ "" := by
  intro hEmpty
  have hHead := head?_spelling p
  rw [← toList_text, hEmpty] at hHead
  simp at hHead

/- Exactly the texts of absolute paths are rooted. -/
theorem isRooted_text
    (p : Path) :
    isRooted p.text = p.isAbsolute := by
  unfold isRooted isAbsolute
  rw [toList_text, head?_spelling]
  cases p.anchor <;> decide

/- What follows a separator in front of a spelled path. -/
private theorem remainder_text
    (anchor : Anchor)
    (segments : List String) :
    remainder (text ⟨anchor, segments⟩) =
      match anchor, segments with
      | .absolute, [] => []
      | .absolute, name :: names =>
          Segment.spelling name ++ spellSegments names
      | .relative, names => '.' :: spellSegments names := by
  unfold remainder
  rw [isRooted_text, toList_text]
  cases anchor <;> cases segments <;> rfl

/-
  The pieces of a spelled path are its segments, but for
  pieces that say nothing.
-/
theorem moves_text
    {p : Path}
    (hNamed : p.Named) :
    (pieces (remainder p.text)).filterMap Move.ofPiece =
      p.segments.map .down := by
  rcases p with ⟨anchor, segments⟩
  have hMoves := Move.filterMap_ofPiece hNamed
  have hTexts :
      ∀ names : List String,
        (names.map String.toList).map String.ofList =
          names := by
    intro names
    simp [Function.comp_def]
  rw [remainder_text, pieces]
  cases anchor with
  | absolute =>
      cases segments with
      | nil =>
          rfl
      | cons name names =>
          rw [Pieces.ofText_spelling_append, hTexts, hMoves]
  | relative =>
      cases segments with
      | nil =>
          rfl
      | cons name names =>
          -- The sign of the anchor is a piece of its own.
          have hPieces :
              Pieces.ofText
                  ('.' :: spellSegments (name :: names)) =
                ['.']
                  :: (name :: names).map String.toList := by
            have hClosed :
                Pieces.isOpenAfter false ['.'] = false := by
              rfl
            rw [← Pieces.ofText_spelling_append]
            exact Pieces.ofText_append_separator hClosed _
          have hDot :
              Move.ofPiece (String.ofList ['.']) = none := by
            decide
          rw [hPieces, List.map_cons, hTexts,
            List.filterMap_cons, hDot, hMoves]

/- A spelled path does not end inside an escape. -/
theorem isOpenAfter_text
    (p : Path) :
    Pieces.isOpenAfter false (remainder p.text) = false := by
  rcases p with ⟨anchor, segments⟩
  rw [remainder_text]
  cases anchor with
  | absolute =>
      cases segments with
      | nil =>
          rfl
      | cons name names =>
          simp only [Pieces.isOpenAfter_append,
            Pieces.isOpenAfter_spelling,
            Pieces.isOpenAfter_spellSegments]
  | relative =>
      exact Pieces.isOpenAfter_spellSegments segments

/-
  The text of a path whose segments are names reads back as
  the path, whatever the context of an absolute path.
-/
theorem parseIn_text
    {p : Path}
    (hNamed : p.Named)
    {context : Option Path}
    (hContext : p.isAbsolute = true ∨ context = none) :
    parseIn context p.text = .ok p := by
  have hStart :
      startOf context p.text = ⟨p.anchor, []⟩ := by
    unfold startOf
    rw [isRooted_text]
    rcases p with ⟨anchor, segments⟩
    cases anchor with
    | absolute =>
        rfl
    | relative =>
        rcases hContext with hAbsolute | rfl
        · simp [isAbsolute] at hAbsolute
        · rfl
  rw [parseIn_eq_resolve context (text_ne_empty p), hStart,
    resolve_of_closed _ _ (isOpenAfter_text p),
    moves_text hNamed, Move.run_down]
  simp

end Path

end HierPath
