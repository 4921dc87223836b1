import HierPath.Proofs.KeyList.Loading

/-
  Key lists that are written with one key on a line.

  A text can stand on a line as a key when it is not blank,
  has no blank at its ends, is no comment and has no line
  feed in it. A content that lists such texts has them for
  its key lines, the first on the first line and so on. So
  loading it stores what the texts read as under ascending
  numbers.

  Key definitions include:
    * `KeyList.IsKeyText`
    * `KeyList.Lists`

  Key theorems include:
    * `KeyList.keyLines_of_lists`
    * `KeyList.load_of_lists`
-/

------------------------------------------------------------
-- Texts On Lines Of Their Own
------------------------------------------------------------

namespace HierPath

namespace KeyList

/- The text can stand on a line of its own as a key. -/
structure IsKeyText
    (text : String) : Prop where
  not_blank : text ≠ ""
  trimmed : Text.trim text.toList = text.toList
  not_comment : text.toList.head? ≠ some '#'
  no_feed : '\n' ∉ text.toList

instance
    (text : String) : Decidable (IsKeyText text) :=
  decidable_of_iff
    (text ≠ "" ∧ Text.trim text.toList = text.toList
      ∧ text.toList.head? ≠ some '#'
      ∧ '\n' ∉ text.toList)
    ⟨fun h => ⟨h.1, h.2.1, h.2.2.1, h.2.2.2⟩,
      fun h => ⟨h.1, h.2, h.3, h.4⟩⟩

/-
  The content has the texts one below the other. The last
  line may have a line feed after it or not.
-/
def Lists
    (content : String)
    (texts : List String) : Prop :=
  content = "\n".intercalate texts
    ∨ content = String.join (texts.map (· ++ "\n"))

/- The lines of a listing are the texts and blank lines. -/
private theorem lines_of_lists
    {content : String}
    {texts : List String}
    (hPlain : ∀ text ∈ texts, '\n' ∉ text.toList)
    (hContent : Lists content texts) :
    ∃ blanks,
      Text.lines content.toList =
          texts.map String.toList ++ blanks
        ∧ ∀ line ∈ blanks, line = [] := by
  have hPieces :
      ∀ piece ∈ texts.map String.toList, '\n' ∉ piece := by
    intro piece hPiece
    rcases List.mem_map.mp hPiece with ⟨text, hText, rfl⟩
    exact hPlain text hText
  rcases hContent with rfl | rfl
  · by_cases hNone : texts = []
    · subst hNone
      exact ⟨[[]], rfl, by simp⟩
    · have hLines := Text.lines_intercalate
        (by simpa using hNone) hPieces
      refine ⟨[], ?_, by simp⟩
      rw [String.toList_intercalate, List.append_nil]
      exact hLines
  · have hLines := Text.lines_flatMap_feed hPieces
    refine ⟨[[]], ?_, by simp⟩
    rw [String.toList_join, ← hLines]
    simp [List.flatMap_map]

/- A text that can stand on a line is a key as it is. -/
theorem IsKeyText.isKey_toList
    {text : String}
    (hText : IsKeyText text) :
    isKey text.toList = true := by
  rw [isKey_iff]
  refine ⟨?_, hText.not_comment⟩
  intro hBlank
  exact hText.not_blank (String.toList_eq_nil_iff.mp hBlank)

/- The key lines of a listing are its texts, in order. -/
theorem keyLines_of_lists
    {content : String}
    {texts : List String}
    (hTexts : ∀ text ∈ texts, IsKeyText text)
    (hContent : Lists content texts) :
    keyLines content =
      (texts.zipIdx 1).map fun line =>
        ⟨line.2, line.1.toList⟩ := by
  rcases lines_of_lists
      (fun text hText => (hTexts text hText).no_feed)
      hContent with ⟨blanks, hLines, hBlanks⟩
  have hTrim :
      (Text.lines content.toList).map Text.trim =
        texts.map String.toList ++ blanks := by
    rw [hLines, List.map_append, List.map_map]
    congr 1
    · apply List.map_congr_left
      intro text hText
      exact (hTexts text hText).trimmed
    · conv_rhs => rw [← List.map_id blanks]
      apply List.map_congr_left
      intro line hLine
      rw [hBlanks line hLine]
      rfl
  have hKept :
      ((texts.map String.toList).zipIdx 1).filter
          (fun line => isKey line.1) =
        (texts.map String.toList).zipIdx 1 := by
    rw [List.filter_eq_self]
    intro line hLine
    rcases List.mem_map.mp (List.fst_mem_of_mem_zipIdx hLine)
      with ⟨text, hText, hSame⟩
    rw [← hSame]
    exact (hTexts text hText).isKey_toList
  have hDropped (n : Nat) :
      (blanks.zipIdx n).filter (fun line => isKey line.1) =
        [] := by
    rw [List.filter_eq_nil_iff]
    intro line hLine
    rw [hBlanks line.1 (List.fst_mem_of_mem_zipIdx hLine)]
    decide
  rw [keyLines, hTrim, List.zipIdx_append,
    List.filter_append, hKept, hDropped, List.append_nil,
    List.zipIdx_map, List.map_map]
  rfl

/-
  Numbered lines of texts that can be read give the keys
  that they read as, with their numbers.
-/
private theorem readings_numbered
    {context : Option Path}
    {texts : List String}
    {keys : List Path}
    (hKeys :
      List.Forall₂
        (fun text key => Path.parseIn context text = .ok key)
        texts keys)
    (n : Nat) :
    let lines : List KeyLine :=
      (texts.zipIdx n).map fun line =>
        ⟨line.2, line.1.toList⟩
    (∀ line ∈ lines, ∃ key, line.read context = .ok key)
      ∧ readings context lines = keys.zipIdx n := by
  induction hKeys generalizing n with
  | nil =>
      exact ⟨by simp, rfl⟩
  | @cons text key texts keys hKey _ ih =>
      rcases ih (n + 1) with ⟨hReadable, hReadings⟩
      have hRead :
          KeyLine.read context ⟨n, text.toList⟩ =
            .ok key := by
        rw [KeyLine.read, String.ofList_toList, hKey]
      simp only [List.zipIdx_cons, List.map_cons]
      constructor
      · intro line hLine
        rcases List.mem_cons.mp hLine with rfl | hLine
        · exact ⟨key, hRead⟩
        · exact hReadable line hLine
      · rw [readings_cons hRead, hReadings]

/-
  Loading a listing of texts that can be read stores the
  keys that they read as, numbered from one.
-/
theorem load_of_lists
    {context : Option Path}
    {content : String}
    {texts : List String}
    {keys : List Path}
    (hTexts : ∀ text ∈ texts, IsKeyText text)
    (hContent : Lists content texts)
    (hKeys :
      List.Forall₂
        (fun text key => Path.parseIn context text = .ok key)
        texts keys) :
    let entries := keys.zipIdx 1
    let tree : Tree Nat := Tree.ofList entries
    load context content =
      ⟨.ok tree,
        storedEvents .empty entries
          ++ [.loaded tree.count tree.nodeCount]⟩ := by
  rcases readings_numbered hKeys 1 with
    ⟨hReadable, hReadings⟩
  rw [← keyLines_of_lists hTexts hContent]
    at hReadable hReadings
  have hLoad := loadLines_append hReadable .empty []
  rw [List.append_nil, hReadings] at hLoad
  exact hLoad

end KeyList

end HierPath
