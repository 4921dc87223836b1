import HierPath.Proofs.Path.Order
import HierPath.Proofs.Tree.Shape
import Mathlib.Data.List.Chain

/-
  The nodes of a tree, listed from the top.

  Trees are taken apart into their top and the branches
  below it, so proofs on whole trees go by induction on
  branches. A node is listed before those below it, and
  branches are listed in order. Names lead to the nodes of
  the list and to nothing else.

  The paths of the list are strictly ascending. Each goes
  one name down from the path before it or from one further
  up, so the depths and last names of the paths tell what
  the paths are.

  Key definitions include:
    * `Tree.nodes`
    * `Path.StepsTo`

  Key theorems include:
    * `Tree.induction_on_branches`
    * `Tree.nodes_eq`
    * `Tree.WellFormed.mem_nodes_iff`
    * `Tree.WellFormed.isChain_nodes`
    * `Tree.WellFormed.pairwise_nodes`
    * `Path.eq_of_stepsTo`
-/

------------------------------------------------------------
-- Branches
------------------------------------------------------------

namespace HierPath

universe u

namespace Tree

variable {V : Type u}

/-
  What holds of a tree whenever it holds of its branches
  holds of all trees.
-/
@[elab_as_elim]
theorem induction_on_branches
    {motive : Tree V → Prop}
    (tree : Tree V)
    (step :
      ∀ tree : Tree V,
        (∀ branch ∈ tree.branches, motive branch) →
          motive tree) :
    motive tree := by
  refine @Tree.rec V motive
    (fun named => ∀ branch ∈ named.map Prod.snd,
      motive branch)
    (fun entry => motive entry.2) ?_ ?_ ?_ ?_ tree
  · intro path item named hNamed
    exact step _ hNamed
  · simp
  · intro entry rest hEntry hRest branch hBranch
    rcases List.mem_cons.mp hBranch with rfl | hBranch
    · exact hEntry
    · exact hRest branch hBranch
  · intro name tree hTree
    exact hTree

/- The branches of a tidy node are its children. -/
theorem Tidy.mem_branches_iff
    {tree : Tree V}
    (hTidy : tree.Tidy)
    (child : Tree V) :
    child ∈ tree.branches ↔
      ∃ name, tree.child? name = some child := by
  have hNamed :
      child ∈ tree.branches ↔
        ∃ name, (name, child) ∈ tree.children := by
    unfold branches
    simp
  rw [hNamed]
  exact exists_congr fun name =>
    Children.mem_iff_find? hTidy.sorted name child

end Tree

end HierPath

------------------------------------------------------------
-- Listed Nodes
------------------------------------------------------------

namespace HierPath

universe u

namespace Tree

variable {V : Type u}

mutual

/- The nodes of a tree, the top first and branch by branch. -/
def nodes : Tree V → List (Tree V)
  | .node path item children =>
      .node path item children :: nodesAll children

/- The nodes of named trees, tree by tree. -/
def nodesAll : List (String × Tree V) → List (Tree V)
  | [] => []
  | (_, tree) :: rest => tree.nodes ++ nodesAll rest

end

/- The nodes of named trees are those of each tree. -/
private theorem nodesAll_eq
    (named : List (String × Tree V)) :
    nodesAll named = (named.map Prod.snd).flatMap nodes := by
  induction named with
  | nil =>
      rfl
  | cons entry rest ih =>
      rw [nodesAll, ih, List.map_cons, List.flatMap_cons]

/- A tree has its top for a node and those of its branches. -/
theorem nodes_eq
    (tree : Tree V) :
    tree.nodes = tree :: tree.branches.flatMap nodes := by
  cases tree with
  | node path item named =>
      rw [nodes, nodesAll_eq]
      rfl

/- The first node of a tree is the tree itself. -/
theorem head?_nodes
    (tree : Tree V) :
    tree.nodes.head? = some tree := by
  rw [nodes_eq]
  rfl

/- The nodes that are listed are those that names lead to. -/
theorem WellFormed.mem_nodes_iff
    {tree : Tree V}
    (hTree : tree.WellFormed)
    (node : Tree V) :
    node ∈ tree.nodes ↔
      ∃ names, tree.descend? names = some node := by
  induction tree using induction_on_branches with
  | step tree ih =>
      rcases (wellFormed_iff tree).mp hTree with
        ⟨hTidy, hChildren⟩
      rw [nodes_eq, List.mem_cons, List.mem_flatMap]
      constructor
      · intro hNode
        rcases hNode with rfl | ⟨child, hBranch, hBelow⟩
        · exact ⟨[], descend?_nil node⟩
        · rcases (hTidy.mem_branches_iff child).mp hBranch
            with ⟨name, hChild⟩
          rcases (ih child hBranch
              (hChildren name child hChild)).mp hBelow with
            ⟨names, hNames⟩
          exact ⟨name :: names, descend?_cons_eq_some_iff.mpr
            ⟨child, hChild, hNames⟩⟩
      · intro hNames
        rcases hNames with ⟨names, hNames⟩
        cases names with
        | nil =>
            exact Or.inl (eq_of_descend?_nil hNames).symm
        | cons name rest =>
            rcases descend?_cons_eq_some_iff.mp hNames with
              ⟨child, hChild, hRest⟩
            have hBranch : child ∈ tree.branches :=
              (hTidy.mem_branches_iff child).mpr
                ⟨name, hChild⟩
            exact Or.inr ⟨child, hBranch,
              (ih child hBranch
                (hChildren name child hChild)).mpr
                ⟨rest, hRest⟩⟩

end Tree

end HierPath

------------------------------------------------------------
-- From Node To Node
------------------------------------------------------------

namespace HierPath

universe u

namespace Path

/-
  The second path is one name below the first one or below a
  path further up, and comes after it.
-/
structure StepsTo
    (p q : Path) : Prop where
  one_down :
    ∃ above name,
      p.startsWith above = true ∧ q = above.below name
  ascends : compare p q = .lt

end Path

namespace Tree

namespace WellFormed

variable {V : Type u}
variable {tree : Tree V}

/- The nodes of a branch lie below its name. -/
private theorem path_of_mem_nodes_child
    (hTree : tree.WellFormed)
    {name : String}
    {child : Tree V}
    (hChild : tree.child? name = some child)
    {node : Tree V}
    (hNode : node ∈ child.nodes) :
    ∃ names, node.path =
      ⟨tree.path.anchor,
        tree.path.segments ++ name :: names⟩ := by
  rcases (wellFormed_iff tree).mp hTree with
    ⟨hTidy, hChildren⟩
  have hBelow := hChildren name child hChild
  rcases (hBelow.mem_nodes_iff node).mp hNode with
    ⟨names, hNames⟩
  refine ⟨names, ?_⟩
  rw [hBelow.path_eq hNames, hTidy.labelled hChild]
  simp [Path.below]

/- From any node of one branch a step leads to the next. -/
private theorem stepsTo_of_siblings
    (hTree : tree.WellFormed)
    {name other : String}
    {child twin : Tree V}
    (hChild : tree.child? name = some child)
    (hTwin : tree.child? other = some twin)
    (hNames : compare name other = .lt)
    {node : Tree V}
    (hNode : node ∈ child.nodes) :
    node.path.StepsTo twin.path := by
  have hTidy := ((wellFormed_iff tree).mp hTree).1
  rcases path_of_mem_nodes_child hTree hChild hNode with
    ⟨names, hPath⟩
  have hTwinPath := hTidy.labelled hTwin
  refine ⟨⟨tree.path, other, ?_, hTwinPath⟩, ?_⟩
  · rw [hPath]
    simp [Path.startsWith]
  · rw [hPath, hTwinPath]
    exact Path.compare_below _ _ hNames names []

/- From a node a step leads to each of its branches. -/
private theorem stepsTo_of_branch
    (hTree : tree.WellFormed)
    {name : String}
    {child : Tree V}
    (hChild : tree.child? name = some child) :
    tree.path.StepsTo child.path := by
  have hTidy := ((wellFormed_iff tree).mp hTree).1
  have hPath := hTidy.labelled hChild
  refine ⟨⟨tree.path, name, ?_, hPath⟩, ?_⟩
  · simp [Path.startsWith]
  · rw [hPath]
    apply Path.compare_of_startsWith
    · simp [Path.startsWith, Path.below]
    · intro hSame
      have hLength := congrArg Path.depth hSame
      simp [Path.depth, Path.below] at hLength

/- Steps lead from each node to the next one. -/
theorem isChain_nodes
    (hTree : tree.WellFormed) :
    (tree.nodes.map path).IsChain Path.StepsTo := by
  rw [List.isChain_map]
  induction tree using induction_on_branches with
  | step tree ih =>
      rcases (wellFormed_iff tree).mp hTree with
        ⟨hTidy, hChildren⟩
      have hNoneEmpty : [] ∉ tree.branches.map nodes := by
        intro hNone
        rcases List.mem_map.mp hNone with ⟨child, _, hNil⟩
        have hFirst := head?_nodes child
        rw [hNil] at hFirst
        cases hFirst
      rw [nodes_eq, List.isChain_cons, List.flatMap_def,
        List.isChain_flatten hNoneEmpty]
      refine ⟨?_, ?_, ?_⟩
      · intro node hNode
        cases hBranches : tree.branches with
        | nil =>
            rw [hBranches] at hNode
            cases hNode
        | cons child rest =>
            rw [hBranches, List.map_cons, List.flatten_cons,
              List.head?_append, head?_nodes] at hNode
            have hFirst : child = node := by
              simpa using hNode
            have hBranch : node ∈ tree.branches := by
              rw [hBranches, hFirst]
              exact List.mem_cons_self
            rcases (hTidy.mem_branches_iff node).mp hBranch
              with ⟨name, hChild⟩
            exact stepsTo_of_branch hTree hChild
      · intro nodes hNodes
        rcases List.mem_map.mp hNodes with
          ⟨child, hBranch, rfl⟩
        rcases (hTidy.mem_branches_iff child).mp hBranch
          with ⟨name, hChild⟩
        exact ih child hBranch
          (hChildren name child hChild)
      · -- Branches come in the order of their names.
        unfold branches
        rw [List.map_map, List.isChain_map]
        refine List.Pairwise.isChain ?_
        refine hTidy.sorted.imp_of_mem ?_
        intro named other hNamed hOther hNames
        have hChild :=
          (Children.mem_iff_find? hTidy.sorted _ _).mp
            hNamed
        have hTwin :=
          (Children.mem_iff_find? hTidy.sorted _ _).mp
            hOther
        intro node hLast twin hFirst
        rw [Function.comp_apply, head?_nodes] at hFirst
        cases hFirst
        exact stepsTo_of_siblings hTree hChild hTwin hNames
          (List.mem_of_getLast? hLast)

/- The paths of the nodes are strictly ascending. -/
theorem pairwise_nodes
    (hTree : tree.WellFormed) :
    (tree.nodes.map path).Pairwise fun first second =>
      compare first second = .lt := by
  have hTrans : IsTrans Path fun first second =>
      compare first second = .lt :=
    ⟨fun _ _ _ hFirst hSecond =>
      Std.TransCmp.lt_trans hFirst hSecond⟩
  rw [← List.isChain_iff_pairwise]
  exact hTree.isChain_nodes.imp fun _ _ hStep =>
    hStep.ascends

end WellFormed

end Tree

end HierPath

------------------------------------------------------------
-- Paths Told By Their Ends
------------------------------------------------------------

namespace HierPath

namespace Path

/- The last name of a path below another is the name. -/
@[simp] theorem last_below
    (p : Path)
    (name : String) :
    (p.below name).last = name := by
  simp [last, below]

/- It is one segment deeper. -/
@[simp] theorem depth_below
    (p : Path)
    (name : String) :
    (p.below name).depth = p.depth + 1 := by
  simp [depth, below]

/- Where one step leads is told by its depth and its name. -/
private theorem eq_of_stepsTo_of_same
    {p q r : Path}
    (hFirst : p.StepsTo q)
    (hSecond : p.StepsTo r)
    (hDepth : q.depth = r.depth)
    (hLast : q.last = r.last) :
    q = r := by
  rcases hFirst.one_down with ⟨above, name, hAbove, rfl⟩
  rcases hSecond.one_down with ⟨higher, other, hHigher, rfl⟩
  simp only [last_below] at hLast
  simp only [depth_below, Nat.add_right_cancel_iff] at hDepth
  rcases startsWith_iff.mp hAbove with ⟨rest, hRest⟩
  rcases startsWith_iff.mp hHigher with ⟨more, hMore⟩
  rw [hRest, mk.injEq] at hMore
  have hAnchor : above.anchor = higher.anchor := hMore.1
  have hSegments : above.segments = higher.segments :=
    List.append_inj_left hMore.2 hDepth
  rw [below, below, hAnchor, hSegments, hLast]

/- Steps from one path are told by depths and names. -/
private theorem eq_of_stepsTo_of_first
    {p : Path}
    {paths others : List Path}
    (hPaths : (p :: paths).IsChain StepsTo)
    (hOthers : (p :: others).IsChain StepsTo)
    (hDepths : paths.map depth = others.map depth)
    (hLasts : paths.map last = others.map last) :
    paths = others := by
  induction paths generalizing p others with
  | nil =>
      rw [List.map_nil, eq_comm, List.map_eq_nil_iff]
        at hDepths
      exact hDepths.symm
  | cons q paths ih =>
      cases others with
      | nil =>
          cases hDepths
      | cons r others =>
          rw [List.isChain_cons_cons] at hPaths hOthers
          rw [List.map_cons, List.map_cons,
            List.cons.injEq] at hDepths hLasts
          rcases eq_of_stepsTo_of_same hPaths.1 hOthers.1
            hDepths.1 hLasts.1 with rfl
          rw [ih hPaths.2 hOthers.2 hDepths.2 hLasts.2]

/-
  Lists of paths that start alike and go on by steps are
  equal when their depths and last names are.
-/
theorem eq_of_stepsTo
    {paths others : List Path}
    (hPaths : paths.IsChain StepsTo)
    (hOthers : others.IsChain StepsTo)
    (hFirst : paths.head? = others.head?)
    (hDepths : paths.map depth = others.map depth)
    (hLasts : paths.map last = others.map last) :
    paths = others := by
  cases paths with
  | nil =>
      exact (List.head?_eq_none_iff.mp hFirst.symm).symm
  | cons p paths =>
      rcases List.head?_eq_some_iff.mp hFirst.symm with
        ⟨others, rfl⟩
      rw [eq_of_stepsTo_of_first hPaths hOthers
        (List.tail_eq_of_cons_eq hDepths)
        (List.tail_eq_of_cons_eq hLasts)]

end Path

end HierPath
