import HierPath.Proofs.Outline
import HierPath.Proofs.Path.RoundTrip
import HierPath.Proofs.Text.Lines
import HierPath.Proofs.Tree.Nodes

/-
  The rows of an outline and what each of them tells.

  A row is the line of one node without its line feed. Read
  from the left, the blanks in front of the mark give the
  depth, and the mark tells whether there is a value. Read
  from the right, the digits before the closing bracket give
  the value, whatever blanks, digits and brackets the name
  holds. What is left is the escaped name.

  The outline of a root has the rows of the nodes of the
  tree, in the order of the nodes. Depths and last segments
  tell the paths of the nodes, so the rows tell the tree.

  Key definitions include:
    * `Outline.row`
    * `Outline.isMarked`
    * `Tree.rows`

  Key theorems include:
    * `Outline.row_inj`
    * `Outline.isMarked_row`
    * `Outline.feed_not_mem_row`
    * `Tree.WellFormed.lines_outline`
    * `Tree.WellFormed.map_path_eq_of_rows`
    * `Tree.WellFormed.beq_of_rows`
-/

------------------------------------------------------------
-- Rows
------------------------------------------------------------

namespace HierPath

namespace Outline

/- What a line names a node: its path or its escaped name. -/
def name
    (path : Path) : String :=
  if path.depth = 0 then path.text
  else Segment.escape path.last

/- The line of a node up to its line feed. -/
def row
    (showValues : Bool)
    (path : Path)
    (item : Option Nat) : List Char :=
  List.replicate (2 * path.depth) ' '
    ++ mark item :: ' ' ::
      ((name path).toList ++ (remark showValues item).toList)

/- The first mark of the row is that of a value. -/
def isMarked
    (row : List Char) : Bool :=
  row.find? (· ≠ ' ') = some '●'

/- A line is its row with a line feed after it. -/
theorem toList_line
    (showValues : Bool)
    (path : Path)
    (item : Option Nat) :
    (line showValues path.depth path item).toList =
      row showValues path item ++ ['\n'] := by
  simp [line, row, name, toString]

end Outline

end HierPath

------------------------------------------------------------
-- Reading Rows
------------------------------------------------------------

namespace HierPath

namespace Outline

/- No mark is a blank. -/
private theorem mark_ne_blank
    (item : Option Nat) :
    mark item ≠ ' ' := by
  cases item <;> simp [mark]

/- A mark tells whether there is a value. -/
private theorem isSome_of_mark_eq
    {item held : Option Nat}
    (hMark : mark item = mark held) :
    item.isSome = held.isSome := by
  cases item <;> cases held <;> simp [mark] at hMark ⊢

/-
  A run of characters of one kind ends at the first other
  one.
-/
private theorem run_append_cons_inj
    {p : Char → Bool}
    {run twin rest others : List Char}
    {c d : Char}
    (hRun : ∀ x ∈ run, p x = true)
    (hTwin : ∀ x ∈ twin, p x = true)
    (hEnd : p c = false)
    (hTwinEnd : p d = false)
    (hSame : run ++ c :: rest = twin ++ d :: others) :
    run = twin ∧ c = d ∧ rest = others := by
  have hRuns := congrArg (List.takeWhile p) hSame
  rw [List.takeWhile_append_of_pos hRun,
    List.takeWhile_append_of_pos hTwin,
    List.takeWhile_cons_of_neg (by simp [hEnd]),
    List.takeWhile_cons_of_neg (by simp [hTwinEnd]),
    List.append_nil, List.append_nil] at hRuns
  subst hRuns
  exact ⟨rfl, List.cons_eq_cons.mp
    (List.append_cancel_left hSame)⟩

/- The digits of a number are digits. -/
private theorem isDigit_of_mem_repr
    {n : Nat}
    {c : Char}
    (hChar : c ∈ n.repr.toList.reverse) :
    c.isDigit = true := by
  rw [Nat.toList_repr, List.mem_reverse] at hChar
  exact Nat.isDigit_of_mem_toDigits (by decide) (by decide)
    hChar

/-
  A remark is told from the text before it, since its digits
  are followed by a blank when they are read from the right.
-/
private theorem remark_inj
    {before other : List Char}
    {line twin : Nat}
    (hSame :
      before ++ (remark true (some line)).toList =
        other ++ (remark true (some twin)).toList) :
    before = other ∧ line = twin := by
  have hTurned := congrArg List.reverse hSame
  simp only [remark, String.toList_append,
    List.reverse_append, toString] at hTurned
  have hDigits :
      line.repr.toList.reverse
          ++ ' ' :: ("enil( ".toList ++ before.reverse) =
        twin.repr.toList.reverse
          ++ ' ' :: ("enil( ".toList ++ other.reverse) := by
    simpa using hTurned
  rcases run_append_cons_inj
      (fun _ => isDigit_of_mem_repr)
      (fun _ => isDigit_of_mem_repr) rfl rfl hDigits with
    ⟨hNumber, _, hRest⟩
  constructor
  · exact List.reverse_injective
      (List.append_cancel_left hRest)
  · have hRead := congrArg (Nat.ofDigitChars 10 · 0)
      (List.reverse_injective hNumber)
    simpa [Nat.toList_repr, Nat.ofDigitChars_toDigits]
      using hRead

/- The name and the depth tell the last segment. -/
private theorem last_eq_of_name_eq
    {p q : Path}
    (hDepth : p.depth = q.depth)
    (hName : name p = name q) :
    p.last = q.last := by
  unfold name at hName
  rw [← hDepth] at hName
  by_cases hTop : p.depth = 0
  · rw [if_pos hTop, if_pos hTop] at hName
    rcases p with ⟨anchor, names⟩
    rcases q with ⟨other, others⟩
    rcases List.eq_nil_of_length_eq_zero hTop with rfl
    rcases List.eq_nil_of_length_eq_zero
      (hDepth.symm.trans hTop) with rfl
    exact hName
  · rw [if_neg hTop, if_neg hTop] at hName
    exact Segment.spelling_injective
      (String.ofList_injective hName)

/- Equal rows are of equal depth, marks and last segments. -/
theorem row_inj
    {showValues : Bool}
    {p q : Path}
    {item held : Option Nat}
    (hRows : row showValues p item = row showValues q held) :
    p.depth = q.depth ∧ p.last = q.last
      ∧ item.isSome = held.isSome
      ∧ (showValues = true → item = held) := by
  rcases run_append_cons_inj (p := (· = ' '))
      (by simp) (by simp)
      (by simp [mark_ne_blank]) (by simp [mark_ne_blank])
      hRows with ⟨hBlanks, hMark, hRest⟩
  have hDepth : p.depth = q.depth := by
    simpa using congrArg List.length hBlanks
  have hSome := isSome_of_mark_eq hMark
  have hTexts := List.tail_eq_of_cons_eq hRest
  suffices hParts :
      name p = name q ∧ (showValues = true → item = held) from
    ⟨hDepth, last_eq_of_name_eq hDepth hParts.1, hSome,
      hParts.2⟩
  cases showValues with
  | false =>
      refine ⟨String.toList_injective ?_, nofun⟩
      exact List.append_cancel_right hTexts
  | true =>
      cases item with
      | none =>
          cases held with
          | none =>
              refine ⟨String.toList_injective ?_,
                fun _ => rfl⟩
              exact List.append_cancel_right hTexts
          | some twin =>
              cases hSome
      | some line =>
          cases held with
          | none =>
              cases hSome
          | some twin =>
              rcases remark_inj hTexts with
                ⟨hNames, hValues⟩
              exact ⟨String.toList_injective hNames,
                fun _ => congrArg some hValues⟩

/- A row is marked where its node has a value. -/
theorem isMarked_row
    (showValues : Bool)
    (path : Path)
    (item : Option Nat) :
    isMarked (row showValues path item) = item.isSome := by
  have hBlanks (n : Nat) :
      (List.replicate n ' ').find? (· ≠ ' ') = none := by
    simp
  rw [isMarked, row, List.find?_append, hBlanks,
    List.find?_cons_of_pos (by simp [mark_ne_blank])]
  cases item <;> simp [mark]

end Outline

end HierPath

------------------------------------------------------------
-- Rows Without Line Feeds
------------------------------------------------------------

namespace HierPath

namespace Outline

/- A remark has no line feed. -/
private theorem feed_not_mem_remark
    (showValues : Bool)
    (item : Option Nat) :
    '\n' ∉ (remark showValues item).toList := by
  intro hFeed
  unfold remark at hFeed
  split at hFeed
  next line =>
    have hDigits : '\n' ∈ line.repr.toList := by
      simpa [toString] using hFeed
    have hDigit : '\n'.isDigit = true :=
      isDigit_of_mem_repr (List.mem_reverse.mpr hDigits)
    cases hDigit
  next =>
    simp at hFeed

/- No name has a line feed where no segment has one. -/
private theorem feed_not_mem_name
    {path : Path}
    (hPlain : ∀ name ∈ path.segments, '\n' ∉ name.toList) :
    '\n' ∉ (name path).toList := by
  intro hFeed
  unfold name at hFeed
  split at hFeed
  next =>
    rw [Path.toList_text] at hFeed
    rcases Path.mem_spelling hFeed with
      hMark | ⟨segment, hSegment, hHere⟩
    · simp at hMark
    · exact hPlain segment hSegment hHere
  next hDeep =>
    rcases path with ⟨anchor, names⟩
    rcases List.eq_nil_or_concat names with
      rfl | ⟨above, segment, rfl⟩
    · exact hDeep rfl
    · rw [Segment.escape, String.toList_ofList] at hFeed
      rcases Segment.mem_spelling hFeed with hHere | hMark
      · apply hPlain segment (by simp)
        simpa [Path.last] using hHere
      · cases hMark

/- No row has a line feed where no segment has one. -/
theorem feed_not_mem_row
    (showValues : Bool)
    {path : Path}
    (hPlain : ∀ name ∈ path.segments, '\n' ∉ name.toList)
    (item : Option Nat) :
    '\n' ∉ row showValues path item := by
  intro hFeed
  simp only [row, List.mem_append, List.mem_cons] at hFeed
  rcases hFeed with hBlank | hMark | hBlank | hName | hRemark
  · cases List.eq_of_mem_replicate hBlank
  · cases item <;> cases hMark
  · cases hBlank
  · exact feed_not_mem_name hPlain hName
  · exact feed_not_mem_remark showValues item hRemark

end Outline

end HierPath

------------------------------------------------------------
-- Rows Of A Tree
------------------------------------------------------------

namespace HierPath

namespace Tree

/- The rows of all nodes of a tree. -/
def rows
    (showValues : Bool)
    (tree : Tree Nat) : List (List Char) :=
  tree.nodes.map fun node =>
    Outline.row showValues node.path node.item

/- No segment in the tree has a line feed. -/
def FeedFree
    (tree : Tree Nat) : Prop :=
  ∀ node ∈ tree.nodes, ∀ name ∈ node.path.segments,
    '\n' ∉ name.toList

instance
    (tree : Tree Nat) : Decidable tree.FeedFree :=
  inferInstanceAs (Decidable (∀ node ∈ tree.nodes,
    ∀ name ∈ node.path.segments, '\n' ∉ name.toList))

namespace WellFormed

variable {tree twin : Tree Nat}

/- The lines of a tree are those of its nodes, in order. -/
private theorem lines_eq_map
    (hTree : tree.WellFormed)
    (showValues : Bool) :
    Outline.lines showValues tree.path.depth tree =
      tree.nodes.map fun node =>
        Outline.line showValues node.path.depth node.path
          node.item := by
  induction tree using induction_on_branches with
  | step tree ih =>
      rcases (wellFormed_iff tree).mp hTree with
        ⟨hTidy, hChildren⟩
      rw [Outline.lines_eq, nodes_eq, List.map_cons,
        List.map_flatMap]
      congr 1
      apply List.flatMap_congr
      intro child hBranch
      rcases (hTidy.mem_branches_iff child).mp hBranch with
        ⟨name, hChild⟩
      have hDepth :
          tree.path.depth + 1 = child.path.depth := by
        rw [hTidy.labelled hChild, Path.depth_below]
      rw [hDepth]
      exact ih child hBranch (hChildren name child hChild)

/- The outline of a root has its rows for lines. -/
theorem lines_outline
    (hTree : tree.WellFormed)
    (hTop : tree.path.depth = 0)
    (hPlain : tree.FeedFree)
    (showValues : Bool) :
    Text.lines (tree.outline showValues).toList =
      tree.rows showValues ++ [[]] := by
  have hOutline :
      (tree.outline showValues).toList =
        (tree.rows showValues).flatMap (· ++ ['\n']) := by
    rw [outline, String.toList_join, ← hTop,
      hTree.lines_eq_map, rows, List.flatMap_map,
      List.flatMap_map]
    simp only [Outline.toList_line]
  rw [hOutline]
  apply Text.lines_flatMap_feed
  intro row hRow
  rcases List.mem_map.mp hRow with ⟨node, hNode, rfl⟩
  exact Outline.feed_not_mem_row showValues
    (hPlain node hNode) node.item

end WellFormed

/- The rows of exactly the nodes with a value are marked. -/
theorem map_isMarked_rows
    (tree : Tree Nat)
    (showValues : Bool) :
    (tree.rows showValues).map Outline.isMarked =
      tree.nodes.map hasItem := by
  rw [rows, List.map_map]
  apply List.map_congr_left
  intro node _
  exact Outline.isMarked_row showValues node.path node.item

/- As many rows are marked as the tree holds values. -/
theorem countP_isMarked_rows
    (tree : Tree Nat)
    (showValues : Bool) :
    (tree.rows showValues).countP Outline.isMarked =
      tree.count := by
  have hMarks := congrArg (List.countP id)
    (tree.map_isMarked_rows showValues)
  rw [List.countP_map, List.countP_map] at hMarks
  exact hMarks.trans tree.countP_nodes

end Tree

end HierPath

------------------------------------------------------------
-- Trees Told By Their Rows
------------------------------------------------------------

namespace HierPath

namespace Tree

/- What every row tells of its node is told by the rows. -/
private theorem map_eq_of_rows
    {α : Type}
    {showValues : Bool}
    {f : Tree Nat → α}
    (hTold :
      ∀ node other : Tree Nat,
        Outline.row showValues node.path node.item =
            Outline.row showValues other.path other.item →
          f node = f other)
    {tree twin : Tree Nat}
    (hRows : tree.rows showValues = twin.rows showValues) :
    tree.nodes.map f = twin.nodes.map f := by
  unfold rows at hRows
  rw [← List.forall₂_eq_eq_eq, List.forall₂_map_left_iff,
    List.forall₂_map_right_iff] at hRows ⊢
  exact hRows.imp hTold

namespace WellFormed

variable {tree twin : Tree Nat}

/- The rows tell the paths of the nodes. -/
theorem map_path_eq_of_rows
    (hTree : tree.WellFormed)
    (hTwin : twin.WellFormed)
    (hTop : tree.path = twin.path)
    {showValues : Bool}
    (hRows : tree.rows showValues = twin.rows showValues) :
    tree.nodes.map path = twin.nodes.map path := by
  have hDepths := map_eq_of_rows (f := Path.depth ∘ path)
    (fun _ _ hRow => (Outline.row_inj hRow).1) hRows
  have hLasts := map_eq_of_rows (f := Path.last ∘ path)
    (fun _ _ hRow => (Outline.row_inj hRow).2.1) hRows
  rw [← List.map_map, ← List.map_map] at hDepths hLasts
  apply Path.eq_of_stepsTo hTree.isChain_nodes
    hTwin.isChain_nodes ?_ hDepths hLasts
  simp [head?_nodes, hTop]

/- They tell the keys. -/
theorem paths_eq_of_rows
    (hTree : tree.WellFormed)
    (hTwin : twin.WellFormed)
    (hTop : tree.path = twin.path)
    {showValues : Bool}
    (hRows : tree.rows showValues = twin.rows showValues) :
    tree.paths = twin.paths := by
  have hPaths (tree : Tree Nat) :
      tree.paths =
        (((tree.nodes.map path).zip
          (tree.nodes.map hasItem)).filter Prod.snd).map
            Prod.fst := by
    rw [paths_eq_map_filter, List.zip_map', List.filter_map,
      List.map_map]
    rfl
  have hItems := map_eq_of_rows (f := hasItem)
    (fun _ _ hRow => (Outline.row_inj hRow).2.2.1) hRows
  rw [hPaths, hPaths, hItems,
    hTree.map_path_eq_of_rows hTwin hTop hRows]

/- Where values are shown, they tell the entries. -/
theorem entries_eq_of_rows
    (hTree : tree.WellFormed)
    (hTwin : twin.WellFormed)
    (hTop : tree.path = twin.path)
    (hRows : tree.rows true = twin.rows true) :
    tree.entries = twin.entries := by
  have hEntries (tree : Tree Nat) :
      tree.entries =
        ((tree.nodes.map path).zip
          (tree.nodes.map item)).filterMap fun pair =>
            pair.2.map fun value => (pair.1, value) := by
    rw [entries_eq_filterMap, List.zip_map',
      List.filterMap_map]
    rfl
  have hItems := map_eq_of_rows (f := item)
    (fun _ _ hRow => (Outline.row_inj hRow).2.2.2 rfl) hRows
  rw [hEntries, hEntries, hItems,
    hTree.map_path_eq_of_rows hTwin hTop hRows]

/- So they tell the tree. -/
theorem beq_of_rows
    (hTree : tree.WellFormed)
    (hTwin : twin.WellFormed)
    (hTop : tree.path = twin.path)
    (hRows : tree.rows true = twin.rows true) :
    (tree == twin) = true := by
  apply (hTree.beq_iff_valueAt hTwin).mpr
  refine ⟨hTop, fun names => beq_iff_eq.mpr ?_⟩
  have hBelow
      {tree : Tree Nat}
      (hTree : tree.WellFormed)
      (value : Nat) :
      (⟨tree.path.anchor, tree.path.segments ++ names⟩,
          value) ∈ tree.entries ↔
        tree.valueAt names = some value := by
    rw [hTree.mem_entries_iff]
    simp
  apply Option.ext
  intro value
  rw [← hBelow hTree, ← hBelow hTwin, hTop,
    hTree.entries_eq_of_rows hTwin hTop hRows]

end WellFormed

end Tree

end HierPath
