import HierPath.KeyList
import HierPath.Proofs.Text.Lines
import HierPath.Proofs.Tree.Writing

/-
  The key lines of a text and what they read as.

  A key line is told by its place: it is what trimming
  leaves of the line of its number, and it is neither blank
  nor a comment. The key lines that are loaded are exactly
  these, in the order of their numbers.

  The entries of a text are the keys that its key lines read
  as, each with the number of its line. As the numbers
  ascend, the last number that entries give to names is the
  greatest.

  Key definitions include:
    * `KeyList.HasKeyLine`
    * `KeyList.Reads`
    * `KeyList.LeadsTo`
    * `KeyList.FailsAt`
    * `KeyList.readings`

  Key theorems include:
    * `KeyList.mem_keyLines_iff`
    * `KeyList.pairwise_keyLines`
    * `KeyList.mem_readings_keyLines_iff`
    * `KeyList.lastValue_eq_some_iff_greatest`
-/

------------------------------------------------------------
-- Key Lines
------------------------------------------------------------

namespace HierPath

/- The path that a key line reads as. -/
def KeyLine.read
    (context : Option Path)
    (line : KeyLine) : Except PathError Path :=
  Path.parseIn context (String.ofList line.text)

namespace KeyList

/-
  The text has the key line: the line of its number, trimmed,
  is its text, which is not blank and no comment.
-/
structure HasKeyLine
    (content : String)
    (line : KeyLine) : Prop where
  trimmed :
    ∃ whole, Text.IsLine content.toList line.number whole
      ∧ Text.IsTrimmed whole line.text
  not_blank : line.text ≠ []
  not_comment : line.text.head? ≠ some '#'

/- Some key line of the number reads as the key. -/
def Reads
    (context : Option Path)
    (content : String)
    (number : Nat)
    (key : Path) : Prop :=
  ∃ line, HasKeyLine content line
    ∧ line.number = number ∧ line.read context = .ok key

/- Some key line of the number leads to the names. -/
def LeadsTo
    (context : Option Path)
    (content : String)
    (number : Nat)
    (names : List String) : Prop :=
  ∃ key, Reads context content number key
    ∧ key.segments = names

/- The key line cannot be read, for a cause. -/
def FailsAt
    (context : Option Path)
    (content : String)
    (line : KeyLine)
    (cause : PathError) : Prop :=
  HasKeyLine content line
    ∧ line.read context = .error cause

/- A line holds a key unless it is blank or a comment. -/
theorem isKey_iff
    (text : List Char) :
    isKey text = true ↔
      text ≠ [] ∧ text.head? ≠ some '#' := by
  unfold isKey
  split
  next => simp
  next => simp
  next _ hBlank hComment =>
    simp only [ne_eq, true_iff]
    refine ⟨hBlank, ?_⟩
    intro hHead
    cases text with
    | nil => exact hBlank rfl
    | cons c rest =>
        cases hHead
        exact hComment rest rfl

/- The key lines that are loaded are those of the text. -/
theorem mem_keyLines_iff
    (content : String)
    (line : KeyLine) :
    line ∈ keyLines content ↔ HasKeyLine content line := by
  rcases line with ⟨number, text⟩
  have hMem :
      (⟨number, text⟩ : KeyLine) ∈ keyLines content ↔
        (1 ≤ number
          ∧ ∃ piece,
            (Text.lines content.toList)[number - 1]? =
              some piece
            ∧ Text.trim piece = text)
          ∧ isKey text = true := by
    simp only [keyLines, List.mem_map, List.mem_filter,
      Prod.exists, KeyLine.mk.injEq,
      List.mk_mem_zipIdx_iff_le_and_getElem?_sub,
      List.getElem?_map, Option.map_eq_some_iff]
    constructor
    · rintro ⟨_, _, hParts, rfl, rfl⟩
      exact hParts
    · intro hParts
      exact ⟨_, _, hParts, rfl, rfl⟩
  rw [hMem, isKey_iff]
  constructor
  · rintro ⟨⟨hNumber, hPiece⟩, hBlank, hComment⟩
    refine ⟨?_, hBlank, hComment⟩
    have hLine :=
      (Text.exists_isLine_iff hBlank (number - 1)).mpr hPiece
    rwa [Nat.sub_add_cancel hNumber] at hLine
  · rintro ⟨hTrimmed, hBlank, hComment⟩
    have hNumber : 1 ≤ number := by
      rcases hTrimmed with
        ⟨_, ⟨_, _, _, _, hNumber, _⟩, _⟩
      have hCount : number = _ + 1 := hNumber
      omega
    refine ⟨⟨hNumber, ?_⟩, hBlank, hComment⟩
    apply (Text.exists_isLine_iff hBlank (number - 1)).mp
    rwa [Nat.sub_add_cancel hNumber]

/- Key lines come in the order of their numbers. -/
theorem pairwise_keyLines
    (content : String) :
    (keyLines content).Pairwise fun line other =>
      line.number < other.number := by
  unfold keyLines
  rw [List.pairwise_map]
  apply List.Pairwise.filter
  rw [← List.pairwise_map (f := Prod.snd)
    (R := fun number other : Nat => number < other),
    List.zipIdx_map_snd]
  exact List.pairwise_lt_range' 1

end KeyList

end HierPath

------------------------------------------------------------
-- Readings
------------------------------------------------------------

namespace HierPath

namespace KeyList

/- The entry of a key line that can be read. -/
def reading
    (context : Option Path)
    (line : KeyLine) : Option (Path × Nat) :=
  match line.read context with
  | .error _ => none
  | .ok key => some (key, line.number)

/- The entries of the key lines that can be read. -/
def readings
    (context : Option Path)
    (lines : List KeyLine) : List (Path × Nat) :=
  lines.filterMap (reading context)

/- An entry is the key and the number of its line. -/
private theorem reading_eq_some_iff
    {context : Option Path}
    {line : KeyLine}
    {key : Path}
    {number : Nat} :
    reading context line = some (key, number) ↔
      line.number = number
        ∧ line.read context = .ok key := by
  unfold reading
  cases line.read context with
  | error cause => simp
  | ok read => simp [and_comm]

/- A line that can be read gives one entry. -/
theorem readings_cons
    {context : Option Path}
    {line : KeyLine}
    {key : Path}
    (hRead : line.read context = .ok key)
    (rest : List KeyLine) :
    readings context (line :: rest) =
      (key, line.number) :: readings context rest := by
  have hEntry :
      reading context line = some (key, line.number) :=
    reading_eq_some_iff.mpr ⟨rfl, hRead⟩
  exact List.filterMap_cons_some hEntry

/- The entries of a text are what its key lines read as. -/
theorem mem_readings_keyLines_iff
    {context : Option Path}
    {content : String}
    {key : Path}
    {number : Nat} :
    (key, number) ∈ readings context (keyLines content) ↔
      Reads context content number key := by
  unfold readings
  rw [List.mem_filterMap]
  simp only [reading_eq_some_iff, mem_keyLines_iff]
  rfl

/- The entries of a text ascend in their numbers. -/
theorem pairwise_readings
    (context : Option Path)
    (content : String) :
    (readings context (keyLines content)).Pairwise
      fun entry other => entry.2 < other.2 := by
  unfold readings
  rw [List.pairwise_filterMap]
  refine (pairwise_keyLines content).imp ?_
  intro line other hLess entry hEntry twin hTwin
  rw [← (reading_eq_some_iff.mp hEntry).1,
    ← (reading_eq_some_iff.mp hTwin).1]
  exact hLess

/-
  Where numbers ascend, the last number that entries give to
  names is the greatest.
-/
theorem lastValue_eq_some_iff_greatest
    {entries : List (Path × Nat)}
    (hAscending :
      entries.Pairwise fun entry other =>
        entry.2 < other.2)
    (names : List String)
    (number : Nat) :
    Tree.lastValue entries names = some number ↔
      (∃ key, (key, number) ∈ entries
          ∧ key.segments = names)
        ∧ ∀ other key, (key, other) ∈ entries →
          key.segments = names → other ≤ number := by
  rw [Tree.lastValue_eq_some_iff]
  constructor
  · rintro ⟨before, key, after, rfl, hKey, hAfter⟩
    refine ⟨⟨key, by simp, hKey⟩, ?_⟩
    intro other twin hTwin hNames
    rcases List.mem_append.mp hTwin with hTwin | hTwin
    · have hLess := (List.pairwise_append.mp hAscending).2.2
        (twin, other) hTwin (key, number)
        List.mem_cons_self
      exact Nat.le_of_lt hLess
    · rcases List.mem_cons.mp hTwin with hSame | hTwin
      · cases hSame
        exact Nat.le_refl _
      · exact absurd hNames (hAfter _ hTwin)
  · rintro ⟨⟨key, hEntry, hKey⟩, hGreatest⟩
    rcases List.append_of_mem hEntry with
      ⟨before, after, rfl⟩
    refine ⟨before, key, after, rfl, hKey, ?_⟩
    rintro ⟨twin, other⟩ hTwin hNames
    have hLess := (List.pairwise_cons.mp
      (List.pairwise_append.mp hAscending).2.1).1
        (twin, other) hTwin
    have hMost := hGreatest other twin
      (List.mem_append_right _
        (List.mem_cons_of_mem _ hTwin)) hNames
    exact absurd hLess (Nat.not_lt.mpr hMost)

end KeyList

end HierPath
