import HierPath.Proofs.Tree.Editing
import HierPath.Proofs.Tree.Entries

/-
  Trees that are built from lists of entries.

  A tree that is built at the root of all paths holds the
  last values of its list, under absolute keys. A list of
  absolute keys in ascending order is therefore found again
  as the entries of its tree.

  Key theorems include:
    * `Tree.valueAt_ofList`
    * `Tree.mem_paths_ofList_iff`
    * `Tree.mem_paths_ofList_of_absolute`
    * `Tree.entries_ofList`
-/

------------------------------------------------------------
-- Values And Keys
------------------------------------------------------------

namespace HierPath

universe u

/- An absolute path is given by its segments. -/
theorem Path.eq_of_absolute
    {p : Path}
    (hAbsolute : p.anchor = .absolute) :
    p = ⟨.absolute, p.segments⟩ := by
  rw [← hAbsolute]

namespace Tree

variable {V : Type u}
variable {entries : List (Path × V)}

/- The tree of a list of entries is well formed. -/
theorem wellFormed_ofList
    (entries : List (Path × V)) :
    (ofList entries).WellFormed :=
  wellFormed_run .root [.extend entries]

/- Its top is the root of all paths. -/
@[simp] theorem path_ofList
    (entries : List (Path × V)) :
    (ofList entries).path = .root :=
  path_run .root [.extend entries]

/- It holds the last values of the list. -/
theorem valueAt_ofList
    (entries : List (Path × V))
    (names : List String) :
    (ofList entries).valueAt names =
      lastValue entries names := by
  rw [ofList, valueAt_addAll, empty, valueAt_ofRoot,
    Option.or_none]

/- Its keys are absolute and have the segments of entries. -/
theorem mem_paths_ofList_iff
    (entries : List (Path × V))
    (key : Path) :
    key ∈ (ofList entries).paths ↔
      key.anchor = .absolute
        ∧ ∃ other ∈ entries.map Prod.fst,
          other.segments = key.segments := by
  have hValue (names : List String) :
      ((ofList entries).valueAt names).isSome = true ↔
        ∃ other ∈ entries.map Prod.fst,
          other.segments = names := by
    rw [← Option.ne_none_iff_isSome, valueAt_ofList, ne_eq,
      lastValue_eq_none_iff]
    simp
  rw [(wellFormed_ofList entries).mem_paths_iff,
    path_ofList]
  constructor
  · intro hKey
    rcases hKey with ⟨names, hSome, rfl⟩
    exact ⟨rfl, (hValue names).mp hSome⟩
  · intro hKey
    rcases hKey with ⟨hAbsolute, hOther⟩
    exact ⟨key.segments, (hValue key.segments).mpr hOther,
      Path.eq_of_absolute hAbsolute⟩

/- The keys of a list of absolute keys are these. -/
theorem mem_paths_ofList_of_absolute
    (hAbsolute :
      ∀ other ∈ entries.map Prod.fst,
        other.anchor = .absolute)
    (key : Path) :
    key ∈ (ofList entries).paths ↔
      key ∈ entries.map Prod.fst := by
  rw [mem_paths_ofList_iff]
  constructor
  · intro hKey
    rcases hKey with ⟨hAnchor, other, hOther, hNames⟩
    rw [Path.eq_of_absolute hAnchor, ← hNames,
      ← Path.eq_of_absolute (hAbsolute other hOther)]
    exact hOther
  · intro hKey
    exact ⟨hAbsolute key hKey, key, hKey, rfl⟩

/- Where no key comes twice, every entry is a last one. -/
private theorem lastValue_eq_some_iff_mem
    (hDistinct :
      entries.Pairwise fun first second =>
        first.1.segments ≠ second.1.segments)
    (names : List String)
    (value : V) :
    lastValue entries names = some value ↔
      ∃ key, (key, value) ∈ entries
        ∧ key.segments = names := by
  rw [lastValue_eq_some_iff]
  constructor
  · intro hLast
    rcases hLast with ⟨before, key, after, rfl, hKey, _⟩
    exact ⟨key, by simp, hKey⟩
  · intro hSome
    rcases hSome with ⟨key, hEntry, hKey⟩
    rcases List.append_of_mem hEntry with
      ⟨before, after, rfl⟩
    refine ⟨before, key, after, rfl, hKey, ?_⟩
    intro entry hAfter hNames
    have hOther := (List.pairwise_cons.mp
      (List.pairwise_append.mp hDistinct).2.1).1 entry hAfter
    exact hOther (hKey.trans hNames.symm)

/- Absolute keys in ascending order do not share segments. -/
theorem segments_ne_of_ascending
    (hAbsolute :
      ∀ entry ∈ entries, entry.1.anchor = .absolute)
    (hAscending :
      entries.Pairwise fun first second =>
        compare first.1 second.1 = .lt) :
    entries.Pairwise fun first second =>
      first.1.segments ≠ second.1.segments := by
  refine hAscending.imp_of_mem ?_
  intro first second hFirst hSecond hLess hNames
  rw [Path.eq_of_absolute (hAbsolute first hFirst),
    Path.eq_of_absolute (hAbsolute second hSecond),
    hNames] at hLess
  simp at hLess

/-
  Absolute keys in ascending order are the entries of their
  tree.
-/
theorem entries_ofList
    (hAbsolute :
      ∀ entry ∈ entries, entry.1.anchor = .absolute)
    (hAscending :
      entries.Pairwise fun first second =>
        compare first.1 second.1 = .lt) :
    (ofList entries).entries = entries := by
  have hTree := wellFormed_ofList entries
  have hDistinct :=
    segments_ne_of_ascending hAbsolute hAscending
  apply Path.eq_of_ascending hTree.pairwise_entries
    hAscending
  intro entry
  rcases entry with ⟨key, value⟩
  simp only [hTree.mem_entries_iff, path_ofList,
    valueAt_ofList, lastValue_eq_some_iff_mem hDistinct]
  constructor
  · intro hFound
    rcases hFound with ⟨_, ⟨twin, hEntry, rfl⟩, rfl⟩
    have hTwin : twin = ⟨.absolute, twin.segments⟩ :=
      Path.eq_of_absolute (hAbsolute (twin, value) hEntry)
    rw [hTwin] at hEntry
    exact hEntry
  · intro hEntry
    exact ⟨key.segments, ⟨key, hEntry, rfl⟩,
      Path.eq_of_absolute (hAbsolute (key, value) hEntry)⟩

end Tree

end HierPath
