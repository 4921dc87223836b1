import HierPath.Proofs.KeyList.Listing
import HierPath.Proofs.KeyList.Narrowing
import HierPath.Proofs.Outline.Rows

/-
  The outline of a key list tells the list.

  The top of a key list is the root, so the lines of its
  outline are the rows of its nodes, as long as no segment
  has a line feed. Lists with one outline have the same
  nodes and keys, and the same line numbers where these are
  shown.

  Key theorems include:
    * `KeyList.outline_determines`
-/

------------------------------------------------------------
-- Lists With One Outline
------------------------------------------------------------

namespace HierPath

namespace KeyList

variable {context other : Option Path}
variable {content listing : String}
variable {tree twin : Tree Nat}

/- The lines of the outline are the rows of the nodes. -/
private theorem lines_outline_of_load
    (hLoad : (load context content).outcome = .ok tree)
    (hPlain : tree.FeedFree)
    (showValues : Bool) :
    Text.lines (tree.outline showValues).toList =
      tree.rows showValues ++ [[]] := by
  apply (wellFormed_of_load hLoad).lines_outline ?_ hPlain
  rw [path_of_load hLoad]
  rfl

/- Lists with one outline have the same rows. -/
private theorem rows_eq_of_outline_eq
    (hTree : (load context content).outcome = .ok tree)
    (hTwin : (load other listing).outcome = .ok twin)
    (hPlain : tree.FeedFree)
    (hTwinPlain : twin.FeedFree)
    {showValues : Bool}
    (hOutline :
      tree.outline showValues = twin.outline showValues) :
    tree.rows showValues = twin.rows showValues := by
  have hLines :=
    lines_outline_of_load hTree hPlain showValues
  rw [hOutline, lines_outline_of_load hTwin hTwinPlain]
    at hLines
  exact (List.append_cancel_right hLines).symm

/-
  Key lists without line feeds in their segments that have
  one outline with values are equal, and those that have one
  outline without values have the same nodes and the same
  keys.

  The outline has one line for each node, in the order of
  the nodes, and an empty line after them. The lines of the
  nodes with a value are marked, so there are as many of
  these as there are keys.
-/
theorem outline_determines
    (hTree : (load context content).outcome = .ok tree)
    (hTwin : (load other listing).outcome = .ok twin)
    (hPlain : tree.FeedFree)
    (hTwinPlain : twin.FeedFree) :
    (tree.outline true = twin.outline true →
        (tree == twin) = true
          ∧ tree.nodes.map Tree.path =
            twin.nodes.map Tree.path
          ∧ tree.entries = twin.entries)
      ∧ (tree.outline false = twin.outline false →
        tree.nodes.map Tree.path = twin.nodes.map Tree.path
          ∧ tree.paths = twin.paths)
      ∧ ∀ showValues,
        let rows := tree.nodes.map fun node =>
          Outline.row showValues node.path node.item
        Text.lines (tree.outline showValues).toList =
            rows ++ [[]]
          ∧ rows.length = tree.nodeCount
          ∧ rows.countP Outline.isMarked = tree.count
          ∧ rows.map Outline.isMarked =
            tree.nodes.map Tree.hasItem := by
  have hTreeForm := wellFormed_of_load hTree
  have hTwinForm := wellFormed_of_load hTwin
  have hTop : tree.path = twin.path :=
    (path_of_load hTree).trans (path_of_load hTwin).symm
  refine ⟨?_, ?_, ?_⟩
  · intro hOutline
    have hRows := rows_eq_of_outline_eq hTree hTwin hPlain
      hTwinPlain hOutline
    exact ⟨hTreeForm.beq_of_rows hTwinForm hTop hRows,
      hTreeForm.map_path_eq_of_rows hTwinForm hTop hRows,
      hTreeForm.entries_eq_of_rows hTwinForm hTop hRows⟩
  · intro hOutline
    have hRows := rows_eq_of_outline_eq hTree hTwin hPlain
      hTwinPlain hOutline
    exact ⟨
      hTreeForm.map_path_eq_of_rows hTwinForm hTop hRows,
      hTreeForm.paths_eq_of_rows hTwinForm hTop hRows⟩
  · intro showValues rows
    refine ⟨lines_outline_of_load hTree hPlain showValues,
      ?_, tree.countP_isMarked_rows showValues,
      tree.map_isMarked_rows showValues⟩
    rw [List.length_map, Tree.length_nodes]

/-
  Marks, blanks and remarks in names are no obstacle: the
  outline has as many lines as nodes, and tells the list
  from which it was printed, in whatever context this was.
-/
theorem outline_determines_of_remarks_in_names :
    let context : Path := ⟨.absolute, ["a (line 2)"]⟩
    ∃ tree twin,
      (load none "/a (line 2)/○ ● b\n/a (line 2)\n/a").outcome =
          .ok tree
        ∧ (load (some context) "○ ● b\n.\n../a").outcome =
          .ok twin
        ∧ tree.outline true =
          "○ /\n  ● a (line 3)\n  ● a (line 2) (line 2)\n"
            ++ "    ● ○ ● b (line 1)\n"
        ∧ tree.outline true = twin.outline true
        ∧ (tree == twin) = true
        ∧ (tree.nodes.map fun node =>
            Outline.row true node.path node.item).countP
              Outline.isMarked = 3 := by
  intro context
  let raws : List String :=
    ["/a (line 2)/○ ● b", "/a (line 2)", "/a"]
  let others : List String := ["○ ● b", ".", "../a"]
  let keys : List Path :=
    [⟨.absolute, ["a (line 2)", "○ ● b"]⟩,
      ⟨.absolute, ["a (line 2)"]⟩, ⟨.absolute, ["a"]⟩]
  let tree : Tree Nat := Tree.ofList (keys.zipIdx 1)
  have hRaws : ∀ text ∈ raws, IsKeyText text := by
    decide +kernel
  have hOthers : ∀ text ∈ others, IsKeyText text := by
    decide +kernel
  have hReads :
      List.Forall₂
        (fun text key => Path.parseIn none text = .ok key)
        raws keys := by
    decide +kernel
  have hOtherReads :
      List.Forall₂
        (fun text key =>
          Path.parseIn (some context) text = .ok key)
        others keys := by
    decide +kernel
  have hTree := congrArg Loading.outcome
    (load_of_lists hRaws (Or.inl rfl) hReads)
  have hTwin := congrArg Loading.outcome
    (load_of_lists hOthers (Or.inl rfl) hOtherReads)
  have hPlain : tree.FeedFree := by
    decide +kernel
  have hOutline :
      tree.outline true =
        "○ /\n  ● a (line 3)\n  ● a (line 2) (line 2)\n"
          ++ "    ● ○ ● b (line 1)\n" := by
    decide +kernel
  have hCount : tree.count = 3 := by
    decide +kernel
  rcases outline_determines hTree hTwin hPlain hPlain with
    ⟨hSame, _, hRows⟩
  exact ⟨tree, tree, hTree, hTwin, hOutline, rfl,
    (hSame rfl).1, (hRows true).2.2.1.trans hCount⟩

end KeyList

end HierPath
