import HierPath.Proofs.KeyList.Listing
import HierPath.Proofs.KeyList.Narrowing
import HierPath.Proofs.Outline
import HierPath.Proofs.Path.Constructible

/-
  Printing the keys of a list and loading them again.

  The keys of a tree are absolute paths of names, so their
  texts read back as these keys in every context. A text can
  stand on a line of its own when no name in it has a line
  feed and the last one does not end in a blank: it starts
  with a separator, so it is no comment, whatever its names
  start with.

  The keys come in ascending order, so none of them repeats
  an earlier one, and the tree that is loaded again has the
  same keys under the numbers of their lines. The two trees
  are alike.

  Key definitions include:
    * `Path.FitsLine`

  Key theorems include:
    * `Path.FitsLine.isKeyText`
    * `KeyList.load_of_texts`
    * `KeyList.printed_keys_reload`
-/

------------------------------------------------------------
-- Paths On Lines Of Their Own
------------------------------------------------------------

namespace HierPath

namespace Path

/-
  No name in the path has a line feed, and the last one does
  not end in a blank.
-/
structure FitsLine
    (p : Path) : Prop where
  no_feed : ∀ name ∈ p.segments, '\n' ∉ name.toList
  last_not_blank :
    ∀ name ∈ p.segments.getLast?,
      ∀ c ∈ name.toList.getLast?, Text.isBlank c = false

/- Blank ends are looked for in the last name alone. -/
instance
    (p : Path) : Decidable p.FitsLine :=
  decidable_of_iff
    ((∀ name ∈ p.segments, '\n' ∉ name.toList)
      ∧ ∀ name ∈ p.segments.getLast?,
        name.toList.getLast?.any Text.isBlank = false)
    ⟨fun h => ⟨h.1, fun name hName =>
        (Option.any_eq_false _ _).mp (h.2 name hName)⟩,
      fun h => ⟨h.1, fun name hName =>
        (Option.any_eq_false _ _).mpr (h.2 name hName)⟩⟩

/- An escaped name ends as the name does. -/
private theorem getLast?_spellingOfName
    (name : String) :
    (Segment.spelling name).getLast? =
      name.toList.getLast? := by
  unfold Segment.spelling
  rcases List.eq_nil_or_concat name.toList with
    hNone | ⟨front, c, hConcat⟩
  · rw [hNone]
    rfl
  · have hChar :
        (Segment.spellChar c).getLast? = some c := by
      unfold Segment.spellChar
      split <;> rfl
    rw [hConcat, List.concat_eq_append, List.flatMap_append,
      List.getLast?_append, List.flatMap_singleton, hChar]
    simp

namespace FitsLine

variable {p : Path}

/- A path that fits is not spelled with a blank at its end. -/
private theorem last_of_spelling_not_blank
    (hFits : p.FitsLine) :
    ∀ c ∈ p.spelling.getLast?, Text.isBlank c = false := by
  intro c hLast
  rcases p with ⟨anchor, names⟩
  rcases List.eq_nil_or_concat names with
    rfl | ⟨above, name, rfl⟩
  · cases anchor <;> cases hLast <;> decide
  · rw [List.concat_eq_append] at hFits hLast
    have hName := hFits.last_not_blank name (by simp) c
    have hSpelling := spelling_below ⟨anchor, above⟩ name
    rw [below] at hSpelling
    rw [hSpelling, List.getLast?_append, List.getLast?_cons,
      getLast?_spellingOfName] at hLast
    cases hEnd : name.toList.getLast? with
    | none =>
        rw [hEnd] at hLast
        cases hLast
        decide
    | some last =>
        rw [hEnd] at hLast hName
        exact hName hLast

/- The text of a path that fits can stand on a line. -/
theorem isKeyText
    (hFits : p.FitsLine) :
    KeyList.IsKeyText p.text := by
  have hHead := head?_spelling p
  refine
    { not_blank := text_ne_empty p
      trimmed := ?_
      not_comment := ?_
      no_feed := ?_ }
  · rw [toList_text]
    apply (Text.isTrimmed_iff _ _).mp
    refine
      { between_blanks := ⟨[], [], by simp, by simp, by simp⟩
        first_not_blank := ?_
        last_not_blank := hFits.last_of_spelling_not_blank }
    intro c hFirst
    rw [hHead] at hFirst
    cases hFirst
    cases p.anchor <;> decide
  · rw [toList_text, hHead]
    cases p.anchor <;> decide
  · rw [toList_text]
    intro hFeed
    rcases mem_spelling hFeed with hMark | hName
    · simp at hMark
    · rcases hName with ⟨name, hName, hFeed⟩
      exact hFits.no_feed name hName hFeed

end FitsLine

end Path

end HierPath

------------------------------------------------------------
-- Keys Of Key Lists
------------------------------------------------------------

namespace HierPath

namespace KeyList

variable {context : Option Path}
variable {content : String}
variable {tree : Tree Nat}

/- The keys of a key list are absolute paths of names. -/
private theorem absolute_and_named_of_load
    (hContext : ∀ c ∈ context, c.Named)
    (hLoad : (load context content).outcome = .ok tree)
    {key : Path}
    (hKey : key ∈ tree.paths) :
    key.anchor = .absolute ∧ key.Named := by
  rw [eq_ofList_of_load hLoad, Tree.mem_paths_ofList_iff]
    at hKey
  rcases hKey with ⟨hAnchor, other, hOther, hNames⟩
  rcases List.mem_map.mp hOther with
    ⟨⟨_, number⟩, hEntry, rfl⟩
  rcases mem_readings_keyLines_iff.mp hEntry with
    ⟨line, _, _, hRead⟩
  refine ⟨hAnchor, ?_⟩
  intro name hName
  rw [← hNames] at hName
  exact Path.named_of_parseIn hContext hRead name hName

/- Storing keys that do not share segments repeats none. -/
private theorem repetitions_eq_nil
    {entries : List (Path × Nat)}
    (hDistinct :
      entries.Pairwise fun first second =>
        first.1.segments ≠ second.1.segments) :
    repetitions .empty entries = [] := by
  apply List.eq_nil_iff_forall_not_mem.mpr
  intro note hNote
  rcases mem_repetitions_iff.mp hNote with
    ⟨before, after, rfl, hValue⟩
  change (Tree.ofList before).valueAt _ = _ at hValue
  rw [Tree.valueAt_ofList, Tree.lastValue_eq_some_iff]
    at hValue
  rcases hValue with ⟨above, key, below, rfl, hKey, _⟩
  have hApart := (List.pairwise_append.mp hDistinct).2.2
    (key, note.earlier) (by simp)
    (note.key, note.number) List.mem_cons_self
  exact hApart hKey

/-
  A listing of absolute paths of names in ascending order,
  each fit for a line, loads in every context, without a
  warning, and has the paths for keys under the numbers of
  their lines.
-/
theorem load_of_texts
    {keys : List Path}
    (hAbsolute : ∀ key ∈ keys, key.anchor = .absolute)
    (hNamed : ∀ key ∈ keys, key.Named)
    (hFits : ∀ key ∈ keys, key.FitsLine)
    (hAscending :
      keys.Pairwise fun first second =>
        compare first second = .lt)
    (hContent : Lists content (keys.map Path.text))
    (context : Option Path) :
    ∃ tree,
      (load context content).outcome = .ok tree
        ∧ warnings (load context content).events = []
        ∧ tree.entries = keys.zipIdx 1 := by
  let entries := keys.zipIdx 1
  have hFirst : entries.map Prod.fst = keys :=
    List.zipIdx_map_fst 1 keys
  have hEntry : ∀ entry ∈ entries, entry.1 ∈ keys :=
    fun entry hEntry => List.fst_mem_of_mem_zipIdx hEntry
  have hTexts :
      ∀ text ∈ keys.map Path.text, IsKeyText text := by
    intro text hText
    rcases List.mem_map.mp hText with ⟨key, hKey, rfl⟩
    exact (hFits key hKey).isKeyText
  have hReads :
      List.Forall₂
        (fun text key => Path.parseIn context text = .ok key)
        (keys.map Path.text) keys := by
    rw [List.forall₂_map_left_iff, List.forall₂_same]
    intro key hKey
    apply Path.parseIn_text (hNamed key hKey)
    left
    simp [Path.isAbsolute, hAbsolute key hKey]
  have hAbsoluteEntries :
      ∀ entry ∈ entries, entry.1.anchor = .absolute :=
    fun entry hIn => hAbsolute entry.1 (hEntry entry hIn)
  have hAscendingEntries :
      entries.Pairwise fun first second =>
        compare first.1 second.1 = .lt := by
    rw [← hFirst, List.pairwise_map] at hAscending
    exact hAscending
  have hDistinct := Tree.segments_ne_of_ascending
    hAbsoluteEntries hAscendingEntries
  have hLoad := load_of_lists hTexts hContent hReads
  refine ⟨Tree.ofList entries, ?_, ?_, ?_⟩
  · exact congrArg Loading.outcome hLoad
  · rw [hLoad, warnings_append, warnings_storedEvents,
      repetitions_eq_nil hDistinct]
    rfl
  · exact Tree.entries_ofList hAbsoluteEntries
      hAscendingEntries

end KeyList

end HierPath

------------------------------------------------------------
-- Loading Printed Keys
------------------------------------------------------------

namespace HierPath

namespace KeyList

/-
  The keys of a key list, printed one on a line, load again
  in every context, as far as each of them fits a line. No
  key is repeated, and the tree has the same keys in the same
  order, the same nodes and the same outline, and stores at
  each key the number of its line.
-/
theorem printed_keys_reload
    {context : Option Path}
    (hContext : ∀ c ∈ context, c.Named)
    {content : String}
    {tree : Tree Nat}
    (hLoad : (load context content).outcome = .ok tree)
    (hFits : ∀ key ∈ tree.paths, key.FitsLine)
    {printed : String}
    (hPrinted :
      Lists printed (tree.paths.map Path.text))
    (other : Option Path) :
    ∃ again,
      (load other printed).outcome = .ok again
        ∧ warnings (load other printed).events = []
        ∧ again.paths = tree.paths
        ∧ again.nodeCount = tree.nodeCount
        ∧ again.outline false = tree.outline false
        ∧ ∀ (i : Nat) (key : Path),
          tree.paths[i]? = some key →
            again.get key = .ok (i + 1) := by
  have hTree := wellFormed_of_load hLoad
  have hKeys (key : Path) (hKey : key ∈ tree.paths) :=
    absolute_and_named_of_load hContext hLoad hKey
  rcases load_of_texts (fun key hKey => (hKeys key hKey).1)
      (fun key hKey => (hKeys key hKey).2) hFits
      hTree.pairwise_paths hPrinted other with
    ⟨again, hAgain, hWarnings, hEntries⟩
  have hAgainTree := wellFormed_of_load hAgain
  have hTop := path_of_load hAgain
  have hPaths : again.paths = tree.paths := by
    rw [Tree.paths, hEntries, List.zipIdx_map_fst]
  have hAlike : again.Alike tree := by
    apply (hAgainTree.alike_iff_paths hTree).mpr
    exact ⟨hTop.trans (path_of_load hLoad).symm, hPaths⟩
  refine ⟨again, hAgain, hWarnings, hPaths,
    hAlike.nodeCount_eq, hAlike.outline_eq, ?_⟩
  intro i key hKey
  have hEntry : (key, i + 1) ∈ again.entries := by
    rw [hEntries, List.mk_mem_zipIdx_iff_le_and_getElem?_sub]
    exact ⟨by omega, hKey⟩
  rcases (hAgainTree.mem_entries_iff _ _).mp hEntry with
    ⟨names, hValue, rfl⟩
  apply (Tree.get_eq_ok_iff _ _ _).mpr
  rw [hTop]
  exact hValue

/-
  Keys that start with the mark of a comment, hold blanks
  and marks, or are the context itself, come back from their
  texts where there is no context.
-/
theorem printed_keys_reload_of_marks_and_blanks :
    let printed :=
      "/\r.y\n/#app\n/#app/b c/ #d\n/z\\/\\\\\n"
    ∃ tree again,
      (load (some ⟨.absolute, ["#app"]⟩)
          "b c/ #d\n/z\\/\\\\\n../\r.y\n.\nb c/ #d").outcome =
          .ok tree
        ∧ (∀ key ∈ tree.paths, key.FitsLine)
        ∧ printed =
          String.join
            ((tree.paths.map Path.text).map (· ++ "\n"))
        ∧ (load none printed).outcome = .ok again
        ∧ again.paths = tree.paths
        ∧ again.outline false = tree.outline false
        ∧ again.get ⟨.absolute, ["#app", "b c", " #d"]⟩ =
          .ok 3 := by
  intro printed
  let raws : List String :=
    ["b c/ #d", "/z\\/\\\\", "../\r.y", ".", "b c/ #d"]
  let keys : List Path :=
    [⟨.absolute, ["#app", "b c", " #d"]⟩,
      ⟨.absolute, ["z/\\"]⟩, ⟨.absolute, ["\r.y"]⟩,
      ⟨.absolute, ["#app"]⟩,
      ⟨.absolute, ["#app", "b c", " #d"]⟩]
  let tree : Tree Nat := Tree.ofList (keys.zipIdx 1)
  have hContext :
      ∀ c ∈ some (⟨.absolute, ["#app"]⟩ : Path),
        c.Named := by
    simp [Path.Named, Segment.isName]
  have hRaws : ∀ text ∈ raws, IsKeyText text := by
    decide +kernel
  have hContent :
      "b c/ #d\n/z\\/\\\\\n../\r.y\n.\nb c/ #d" =
        "\n".intercalate raws := by
    decide +kernel
  have hKeys :
      List.Forall₂
        (fun text key =>
          Path.parseIn (some ⟨.absolute, ["#app"]⟩) text =
            .ok key)
        raws keys := by
    decide +kernel
  have hLoad := congrArg Loading.outcome
    (load_of_lists hRaws (Or.inl hContent) hKeys)
  have hFits : ∀ key ∈ tree.paths, key.FitsLine := by
    decide +kernel
  have hPrinted :
      printed =
        String.join
          ((tree.paths.map Path.text).map (· ++ "\n")) := by
    decide +kernel
  rcases printed_keys_reload hContext hLoad hFits
      (Or.inr hPrinted) none with
    ⟨again, hAgain, _, hPaths, _, hOutline, hGet⟩
  refine ⟨tree, again, hLoad, hFits, hPrinted, hAgain,
    hPaths, hOutline, ?_⟩
  apply hGet 2
  decide +kernel

end KeyList

end HierPath
