import HierPath.Proofs.Tree.Shape

/-
  Runs of changes to a tree, and the flat record of what
  they have written.

  A change is a single write, a series of writes, or an
  assignment at a key that holds a value; it is made at the
  top or within the subtree at some place. The ledger of a
  run keeps every write that has happened with all names
  from the top, the latest write first. It is kept without
  a look at the tree.

  A run leaves exactly the tree that the writes of its
  ledger build from the top.

  Key definitions include:
    * `Edit`
    * `Tree.edit`
    * `Tree.run`
    * `Ledger`
    * `Ledger.record`
    * `Ledger.ofEdits`
    * `Ledger.replay`

  Key theorems include:
    * `Ledger.wellFormed_replay`
    * `Ledger.valueAt_replay`
    * `Ledger.graft_edit`
    * `Ledger.run_eq_replay`
    * `Tree.wellFormed_run`
    * `Tree.path_run`
-/

------------------------------------------------------------
-- Changes
------------------------------------------------------------

namespace HierPath

universe u

/-
  A change of a tree. A place is looked up before anything
  is changed there, and places can be nested.
-/
inductive Edit (V : Type u) where
  | add (key : Path) (value : V)
  | extend (entries : List (Path × V))
  | assign (key : Path) (value : V)
  | within (place : Path) (edit : Edit V)

namespace Tree

variable {V : Type u}

/- Make a change; where its look-up fails, make none. -/
def edit : Tree V → Edit V → Tree V
  | tree, .add key value => (tree.add key value).tree
  | tree, .extend entries => tree.addAll entries
  | tree, .assign key value =>
      match tree.assign key value with
      | .error _ => tree
      | .ok (_, after) => after
  | tree, .within place inner =>
      match tree.subtree place with
      | .error _ => tree
      | .ok found =>
          tree.graft place.segments (found.edit inner)

/- Make changes one after another. -/
def run
    (tree : Tree V)
    (edits : List (Edit V)) : Tree V :=
  edits.foldl edit tree

end Tree

end HierPath

------------------------------------------------------------
-- Ledgers
------------------------------------------------------------

namespace HierPath

universe u

/- The names and values of writes, the latest write first. -/
abbrev Ledger (V : Type u) :=
  List (List String × V)

namespace Ledger

variable {V : Type u}

/- The names are none, or some written names go on them. -/
def reaches
    (ledger : Ledger V)
    (names : List String) : Bool :=
  names.isEmpty
    || ledger.any fun entry => names.isPrefixOf entry.1

/- Record one write after another, all below some names. -/
def recordAll
    (base : List String)
    (ledger : Ledger V)
    (entries : List (Path × V)) : Ledger V :=
  entries.foldl
    (fun ledger entry =>
      (base ++ entry.1.segments, entry.2) :: ledger)
    ledger

/-
  Record a change below some names. An assignment counts
  where a value has been written, and a change within a
  place where the place has been reached.
-/
def record
    (base : List String)
    (ledger : Ledger V) : Edit V → Ledger V
  | .add key value =>
      recordAll base ledger [(key, value)]
  | .extend entries =>
      recordAll base ledger entries
  | .assign key value =>
      if (ledger.lookup (base ++ key.segments)).isSome then
        recordAll base ledger [(key, value)]
      else
        ledger
  | .within place inner =>
      if ledger.reaches (base ++ place.segments) then
        record (base ++ place.segments) ledger inner
      else
        ledger

/- The ledger of changes made one after another. -/
def ofEdits
    (edits : List (Edit V)) : Ledger V :=
  edits.foldl (record []) []

/- The tree that the writes of a ledger build. -/
def replay
    (root : Path) : Ledger V → Tree V
  | [] => .ofRoot root
  | (names, value) :: earlier =>
      ((replay root earlier).write names value).tree

end Ledger

end HierPath

------------------------------------------------------------
-- Replayed Trees
------------------------------------------------------------

namespace HierPath

universe u

namespace Ledger

variable {V : Type u}

/- A replayed tree is well formed. -/
theorem wellFormed_replay
    (root : Path)
    (ledger : Ledger V) :
    (replay root ledger).WellFormed := by
  induction ledger with
  | nil =>
      exact Tree.wellFormed_ofRoot root
  | cons entry earlier ih =>
      exact Tree.wellFormed_write ih entry.1 entry.2

/- A replayed tree keeps the path of its top. -/
@[simp] theorem path_replay
    (root : Path)
    (ledger : Ledger V) :
    (replay root ledger).path = root := by
  induction ledger with
  | nil =>
      rfl
  | cons entry earlier ih =>
      rw [replay, Tree.path_write, ih]

/- A replayed tree holds what was written last. -/
theorem valueAt_replay
    (root : Path)
    (ledger : Ledger V)
    (names : List String) :
    (replay root ledger).valueAt names =
      ledger.lookup names := by
  induction ledger with
  | nil =>
      simp [replay]
  | cons entry earlier ih =>
      rw [replay, Tree.valueAt_write, ih, List.lookup_cons]
      by_cases hNames : names = entry.1
      · simp [hNames]
      · simp [hNames, beq_false_of_ne hNames]

/- Written names are those that are found. -/
theorem reaches_iff
    (ledger : Ledger V)
    (names : List String) :
    ledger.reaches names = true ↔
      names = [] ∨
        ∃ rest value,
          ledger.lookup (names ++ rest) = some value := by
  have hPrefix :
      (∃ entry ∈ ledger, names <+: entry.1) ↔
        ∃ rest value,
          ledger.lookup (names ++ rest) = some value := by
    constructor
    · intro hWritten
      rcases hWritten with ⟨entry, hEntry, rest, hRest⟩
      refine ⟨rest, Option.isSome_iff_exists.mp ?_⟩
      rw [hRest, List.lookup_isSome_iff]
      exact ⟨entry, hEntry, by simp⟩
    · intro hFound
      rcases hFound with ⟨rest, value, hLookup⟩
      have hSome :
          (ledger.lookup (names ++ rest)).isSome = true := by
        simp [hLookup]
      rcases List.lookup_isSome_iff.mp hSome with
        ⟨entry, hEntry, hNames⟩
      have hSame : names ++ rest = entry.1 := by
        simpa using hNames
      exact ⟨entry, hEntry, rest, hSame⟩
  simpa [reaches] using or_congr_right hPrefix

/- A replayed tree has a node exactly where it is reached. -/
theorem descend?_replay_isSome
    (root : Path)
    (ledger : Ledger V)
    (names : List String) :
    ((replay root ledger).descend? names).isSome =
      ledger.reaches names := by
  rw [Bool.eq_iff_iff, reaches_iff,
    (wellFormed_replay root ledger).descend?_isSome_iff]
  simp [valueAt_replay]

end Ledger

end HierPath

------------------------------------------------------------
-- Runs
------------------------------------------------------------

namespace HierPath

universe u

namespace Ledger

variable {V : Type u}

/- Writes in a subtree are recorded below its place. -/
theorem graft_addAll
    {root : Path}
    {ledger : Ledger V}
    {base : List String}
    {found : Tree V}
    (hFound :
      (replay root ledger).descend? base = some found)
    (entries : List (Path × V)) :
    (replay root ledger).graft base (found.addAll entries) =
      replay root (recordAll base ledger entries) := by
  induction entries generalizing ledger found with
  | nil =>
      exact (wellFormed_replay root ledger).graft_self hFound
  | cons entry rest ih =>
      let written := (found.add entry.1 entry.2).tree
      let after : Ledger V :=
        (base ++ entry.1.segments, entry.2) :: ledger
      have hAfter :
          (replay root ledger).graft base written =
            replay root after :=
        Tree.graft_write hFound entry.1.segments entry.2
      have hWritten :
          (replay root after).descend? base =
            some written := by
        rw [← hAfter]
        exact Tree.descend?_graft hFound written
      have hRest := ih hWritten
      rw [← hAfter, Tree.graft_graft hFound] at hRest
      exact hRest

/- A change in a subtree is recorded below its place. -/
theorem graft_edit
    {root : Path}
    {ledger : Ledger V}
    {base : List String}
    {found : Tree V}
    (hFound :
      (replay root ledger).descend? base = some found)
    (edit : Edit V) :
    (replay root ledger).graft base (found.edit edit) =
      replay root (record base ledger edit) := by
  induction edit generalizing base found with
  | add key value =>
      exact graft_addAll hFound [(key, value)]
  | extend entries =>
      exact graft_addAll hFound entries
  | assign key value =>
      have hValue :
          found.valueAt key.segments =
            ledger.lookup (base ++ key.segments) := by
        rw [← valueAt_replay root,
          Tree.valueAt_append hFound]
      rw [Tree.edit, Tree.assign_eq, hValue, record]
      cases ledger.lookup (base ++ key.segments) with
      | none =>
          exact (wellFormed_replay root ledger).graft_self
            hFound
      | some old =>
          exact graft_addAll hFound [(key, value)]
  | within place inner ih =>
      have hReaches :
          ledger.reaches (base ++ place.segments) =
            (found.descend? place.segments).isSome := by
        rw [← descend?_replay_isSome root,
          Tree.descend?_append, hFound]
        rfl
      rw [Tree.edit, Tree.subtree, record, hReaches]
      cases hInner : found.descend? place.segments with
      | none =>
          exact (wellFormed_replay root ledger).graft_self
            hFound
      | some node =>
          have hNode :
              (replay root ledger).descend?
                  (base ++ place.segments) =
                some node := by
            rw [Tree.descend?_append, hFound]
            exact hInner
          have hGraft := Tree.graft_append hFound
            place.segments (node.edit inner)
          simpa [hGraft] using ih hNode

/-
  The tree of a run is the one that its ledger builds from
  the top.
-/
theorem run_eq_replay
    (root : Path)
    (edits : List (Edit V)) :
    (Tree.ofRoot root).run edits =
      replay root (ofEdits edits) := by
  have hRun :
      ∀ ledger : Ledger V,
        (replay root ledger).run edits =
          replay root (edits.foldl (record []) ledger) := by
    induction edits with
    | nil =>
        intro ledger
        rfl
    | cons edit rest ih =>
        intro ledger
        have hStep :
            (replay root ledger).edit edit =
              replay root (record [] ledger edit) := by
          rw [← graft_edit (Tree.descend?_nil _) edit,
            Tree.graft]
        rw [Tree.run, List.foldl_cons, hStep]
        exact ih (record [] ledger edit)
  exact hRun []

end Ledger

namespace Tree

variable {V : Type u}

/- Every run of changes leaves a well-formed tree. -/
theorem wellFormed_run
    (root : Path)
    (edits : List (Edit V)) :
    ((ofRoot root).run edits).WellFormed := by
  rw [Ledger.run_eq_replay]
  exact Ledger.wellFormed_replay root _

/- A run of changes keeps the path of the top. -/
@[simp] theorem path_run
    (root : Path)
    (edits : List (Edit V)) :
    ((ofRoot root).run edits).path = root := by
  rw [Ledger.run_eq_replay, Ledger.path_replay]

end Tree

end HierPath
