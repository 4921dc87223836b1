import HierPath.Proofs.KeyList.Contexts
import HierPath.Proofs.KeyList.Listing
import HierPath.Proofs.Tree.Selection

/-
  Selecting keys from a list, and matching them one by one.

  A list of absolute keys is stored under these keys and no
  others, each once and in order. So a pattern that is
  absolute as well selects from the list the keys that it
  matches, whether a key is written once or many times and
  in whatever spelling.

  Key theorems include:
    * `KeyList.select_agrees_with_isMatch`
-/

------------------------------------------------------------
-- Lists Of Absolute Keys
------------------------------------------------------------

namespace HierPath

namespace KeyList

/-
  Where a pattern and all keys of a list are absolute, the
  keys that are selected are those that the pattern matches,
  each once and in ascending order.
-/
theorem select_agrees_with_isMatch
    {context : Option Path}
    {raw : String}
    {source : Path}
    (hSource : Path.parseIn context raw = .ok source)
    (hAnchor : source.anchor = .absolute)
    {pattern : Pattern}
    (hCompile : compile context raw = .ok pattern)
    {raws : List String}
    (hRaws : ∀ text ∈ raws, IsKeyText text)
    {keys : List Path}
    (hKeys :
      List.Forall₂
        (fun text key => Path.parseIn context text = .ok key)
        raws keys)
    (hAbsolute : ∀ key ∈ keys, key.anchor = .absolute) :
    ∃ tree hits,
      (load context ("\n".intercalate raws)).outcome =
          .ok tree
        ∧ select tree pattern none = .ok hits
        ∧ ((hits.map Prod.fst).Pairwise
          fun first second =>
            compare first second = .lt)
        ∧ ∀ key,
          key ∈ hits.map Prod.fst ↔
            key ∈ keys ∧ pattern.isMatch key = true := by
  let tree : Tree Nat := Tree.ofList (keys.zipIdx 1)
  have hTree : tree.WellFormed := Tree.wellFormed_ofList _
  have hTop : tree.path = .root := Tree.path_ofList _
  have hPattern : pattern.source = source := by
    rcases (compile_eq_ok_iff context raw pattern).mp
      hCompile with ⟨other, hOther, hSteps⟩
    cases hSource.symm.trans hOther
    exact (Pattern.of_compile hSteps).1
  have hLoad := load_of_lists hRaws (Or.inl rfl) hKeys
  have hPaths (key : Path) :
      key ∈ tree.paths ↔ key ∈ keys := by
    have hFirst := List.zipIdx_map_fst 1 keys
    have hMem := Tree.mem_paths_ofList_of_absolute
      (by rwa [hFirst]) key
    rwa [hFirst] at hMem
  have hSelect :
      (tree.select pattern).map Prod.fst =
        tree.paths.filter pattern.isMatch := by
    apply Tree.map_select_eq_select_paths hTree
    · rw [hTop]
      rfl
    · rw [hTop, hPattern, hAnchor]
      rfl
  refine ⟨tree, tree.select pattern,
    congrArg Loading.outcome hLoad, rfl, ?_, ?_⟩
  · rw [hSelect]
    exact hTree.pairwise_paths.filter _
  · intro key
    rw [hSelect, List.mem_filter, hPaths]

/-
  A key that is written in two ways is selected once, and
  the keys come in the order of their segments.
-/
theorem select_agrees_with_isMatch_of_two_spellings :
    ∃ pattern tree hits,
      compile (some ⟨.absolute, ["app"]⟩) "*" = .ok pattern
        ∧ (load (some ⟨.absolute, ["app"]⟩)
          "/app/b\n./c/../a\n/x\nb").outcome = .ok tree
        ∧ select tree pattern none = .ok hits
        ∧ ⟨.absolute, ["app", "b"]⟩ ∈ hits.map Prod.fst
        ∧ ⟨.absolute, ["x"]⟩ ∉ hits.map Prod.fst
        ∧ ((hits.map Prod.fst).Pairwise
          fun first second =>
            compare first second = .lt) := by
  let pattern : Pattern :=
    ⟨⟨.absolute, ["app", "*"]⟩,
      [.literal "app", .glob ⟨[[], []]⟩], #[2, 1, 0]⟩
  let raws : List String := ["/app/b", "./c/../a", "/x", "b"]
  let keys : List Path :=
    [⟨.absolute, ["app", "b"]⟩, ⟨.absolute, ["app", "a"]⟩,
      ⟨.absolute, ["x"]⟩, ⟨.absolute, ["app", "b"]⟩]
  have hSource :
      Path.parseIn (some ⟨.absolute, ["app"]⟩) "*" =
        .ok ⟨.absolute, ["app", "*"]⟩ := by
    decide +kernel
  have hCompile :
      compile (some ⟨.absolute, ["app"]⟩) "*" =
        .ok pattern := by
    decide +kernel
  have hRaws : ∀ text ∈ raws, IsKeyText text := by
    decide +kernel
  have hKeys :
      List.Forall₂
        (fun text key =>
          Path.parseIn (some ⟨.absolute, ["app"]⟩) text =
            .ok key)
        raws keys := by
    decide +kernel
  have hAbsolute :
      ∀ key ∈ keys, key.anchor = .absolute := by
    decide
  rcases select_agrees_with_isMatch hSource rfl hCompile
      hRaws hKeys hAbsolute with
    ⟨tree, hits, hLoad, hHits, hAscending, hMem⟩
  refine ⟨pattern, tree, hits, hCompile, hLoad, hHits, ?_,
    ?_, hAscending⟩
  · rw [hMem]
    decide +kernel
  · rw [hMem]
    decide +kernel

end KeyList

end HierPath
