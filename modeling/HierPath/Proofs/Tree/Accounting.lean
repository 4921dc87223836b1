import HierPath.Proofs.Tree.Editing
import HierPath.Proofs.Tree.Growth
import HierPath.Proofs.Tree.Walking
import Mathlib.Data.List.Dedup

/-
  Accounts of the adds of a run.

  A posting is one add as it was made: on a whole tree, at
  names from the top, on the node of a place, with what that
  node has reported. The postings of a run come one after
  another, each from the tree that the one before has left.

  An add makes the nodes that were missing on its way, and
  stores a key more unless it replaces a value; what it
  tells says just that. So at every moment of a run, the
  nodes are those that were told of and the top, one for
  each name list above or at a stored key, and the keys are
  the adds that were not told to replace a value.

  Key definitions include:
    * `Posting`
    * `Posting.Accounts`
    * `Tree.postings`
    * `Tree.runPostings`
    * `Tree.LeadsTo`
    * `Tree.Balances`

  Key theorems include:
    * `Posting.accounts_of_isWrite`
    * `Tree.leadsTo_runPostings`
    * `Tree.LeadsTo.balances`
    * `Tree.run_accounts`
-/

------------------------------------------------------------
-- Postings
------------------------------------------------------------

namespace HierPath

universe u

/-
  One add: the whole tree before it, the names of its key
  from the top, the report of the node on which it was made,
  and the whole tree after it.
-/
structure Posting (V : Type u) where
  before : Tree V
  names : List String
  written : Written V
  after : Tree V

namespace Edit

variable {V : Type u}

/- The change consists of adds. -/
def onlyAdds : Edit V → Bool
  | .add _ _ => true
  | .extend _ => true
  | .assign _ _ => false
  | .within _ inner => inner.onlyAdds

end Edit

namespace Posting

variable {V : Type u}

/- The add on a subtree as an add on the whole tree. -/
def graft
    (tree : Tree V)
    (place : List String)
    (posting : Posting V) : Posting V :=
  { posting with
    before := tree.graft place posting.before
    names := place ++ posting.names
    after := tree.graft place posting.after }

end Posting

namespace Tree

variable {V : Type u}

/- An add at a key, on the whole tree. -/
def post
    (tree : Tree V)
    (key : Path)
    (value : V) : Posting V :=
  let written := tree.add key value
  ⟨tree, key.segments, written, written.tree⟩

/- Adds at keys, one after another. -/
def postAll
    (tree : Tree V) : List (Path × V) → List (Posting V)
  | [] => []
  | (key, value) :: rest =>
      let posting := tree.post key value
      posting :: posting.after.postAll rest

/-
  The adds of a change. Those on the node of a place change
  the whole tree there.
-/
def postings : Tree V → Edit V → List (Posting V)
  | tree, .add key value => [tree.post key value]
  | tree, .extend entries => tree.postAll entries
  | _, .assign _ _ => []
  | tree, .within place inner =>
      match tree.subtree place with
      | .error _ => []
      | .ok found =>
          (found.postings inner).map
            (Posting.graft tree place.segments)

/- The adds of a run of changes. -/
def runPostings
    (tree : Tree V) : List (Edit V) → List (Posting V)
  | [] => []
  | edit :: rest =>
      tree.postings edit ++ (tree.edit edit).runPostings rest

end Tree

end HierPath

------------------------------------------------------------
-- What An Add Accounts For
------------------------------------------------------------

namespace HierPath

universe u

namespace Posting

variable {V : Type u}
variable {posting : Posting V}

/-
  The add changes the counts by the nodes that were missing
  and by the key, if it is new, and this is what it answers
  and tells.
-/
structure Accounts
    (posting : Posting V) : Prop where
  made_missing :
    posting.written.created =
      (posting.before.missing posting.names).length
  nodes_made :
    posting.after.nodeCount =
      posting.before.nodeCount
        + (posting.before.missing posting.names).length
  keys_made :
    posting.after.count =
      posting.before.count
        + if posting.written.previous.isSome then 0 else 1
  answer :
    posting.written.previous =
      posting.before.valueAt posting.names
  told :
    let made :=
      (posting.before.missing posting.names).length
    ∃ node,
      posting.after.descend? posting.names = some node
        ∧ posting.written.events =
          (if 0 < made then
            [.created node.path made]
          else
            [])
          ++ (if posting.written.previous.isSome then
            [.replaced node.path]
          else
            [])

/- The add is a write at its names from the top. -/
def IsWrite
    (posting : Posting V) : Prop :=
  ∃ value,
    posting.before.write posting.names value =
      { posting.written with tree := posting.after }

/- A write keeps the tree well formed. -/
theorem IsWrite.wellFormed
    (hWrite : posting.IsWrite)
    (hBefore : posting.before.WellFormed) :
    posting.after.WellFormed := by
  rcases hWrite with ⟨value, hWrite⟩
  have hTree := congrArg Written.tree hWrite
  have hAfter := Tree.wellFormed_write hBefore
    posting.names value
  rwa [hTree] at hAfter

/- It stores a value at its names. -/
theorem IsWrite.isSome_valueAt_iff
    (hWrite : posting.IsWrite)
    (names : List String) :
    (posting.after.valueAt names).isSome = true ↔
      names = posting.names
        ∨ (posting.before.valueAt names).isSome = true := by
  rcases hWrite with ⟨value, hWrite⟩
  have hTree := congrArg Written.tree hWrite
  have hValue := Tree.valueAt_write posting.before
    posting.names value names
  rw [hTree] at hValue
  change posting.after.valueAt names = _ at hValue
  rw [hValue]
  by_cases hNames : names = posting.names <;>
    simp [hNames]

/- A write from the top accounts for what it changes. -/
theorem accounts_of_isWrite
    (hBefore : posting.before.WellFormed)
    (hWrite : posting.IsWrite) :
    posting.Accounts := by
  rcases posting with ⟨before, names, written, after⟩
  rcases hWrite with ⟨value, hWrite⟩
  have hTree : (before.write names value).tree = after :=
    congrArg Written.tree hWrite
  have hPrevious :
      before.valueAt names = written.previous := by
    rw [← Tree.previous_write before names value, hWrite]
  have hCreated :
      (before.missing names).length = written.created := by
    rw [← Tree.created_write before names value, hWrite]
  have hLocation :
      ⟨before.path.anchor, before.path.segments ++ names⟩ =
        written.location := by
    rw [← Tree.location_write hBefore names value, hWrite]
  have hNodes := Tree.nodeCount_write hBefore names value
  have hKeys := Tree.count_write hBefore names value
  have hAfter := Tree.wellFormed_write hBefore names value
  rw [hTree] at hNodes hKeys hAfter
  refine
    { made_missing := hCreated.symm
      nodes_made := ?_
      keys_made := ?_
      answer := hPrevious.symm
      told := ?_ }
  · rw [hNodes, Tree.created_write]
  · rw [hPrevious] at hKeys
    cases hHeld : written.previous <;>
      simp [hHeld] at hKeys ⊢ <;> omega
  · have hNode :
        (after.descend? names).isSome = true := by
      apply (hAfter.descend?_isSome_iff names).mpr
      refine Or.inr ⟨[], value, ?_⟩
      rw [List.append_nil, ← hTree, Tree.valueAt_write,
        if_pos rfl]
    rcases Option.isSome_iff_exists.mp hNode with
      ⟨node, hNode⟩
    refine ⟨node, hNode, ?_⟩
    have hPath : node.path = written.location := by
      rw [hAfter.path_eq hNode, ← hLocation, ← hTree,
        Tree.path_write]
    rw [hCreated, hPath]
    rfl

/- An add on a subtree is a write from the top. -/
theorem IsWrite.graft
    {tree found : Tree V}
    {place : List String}
    (hFound : tree.descend? place = some found)
    (hWrite : posting.IsWrite) :
    (posting.graft tree place).IsWrite := by
  rcases hWrite with ⟨value, hWrite⟩
  refine ⟨value, ?_⟩
  have hBelow :=
    Tree.descend?_graft hFound posting.before
  change (tree.graft place posting.before).write
    (place ++ posting.names) value = _
  rw [Tree.write_append hBelow, hWrite,
    Tree.graft_graft hFound]
  rfl

end Posting

end HierPath

------------------------------------------------------------
-- One Add After Another
------------------------------------------------------------

namespace HierPath

universe u

namespace Tree

variable {V : Type u}

/-
  The postings are writes, each on the tree that is left by
  the one before it, from the first tree to the second.
-/
def LeadsTo
    (tree : Tree V) : List (Posting V) → Tree V → Prop
  | [], after => tree = after
  | posting :: rest, after =>
      posting.before = tree ∧ posting.IsWrite
        ∧ posting.after.LeadsTo rest after

/- No postings leave the tree as it is. -/
theorem leadsTo_nil_iff
    {tree after : Tree V} :
    tree.LeadsTo [] after ↔ tree = after :=
  Iff.rfl

/- Postings in two parts lead over a tree in between. -/
theorem leadsTo_append_iff
    (tree after : Tree V)
    (earlier later : List (Posting V)) :
    tree.LeadsTo (earlier ++ later) after ↔
      ∃ between,
        tree.LeadsTo earlier between
          ∧ between.LeadsTo later after := by
  induction earlier generalizing tree with
  | nil =>
      simp [LeadsTo]
  | cons posting rest ih =>
      simp only [List.cons_append, LeadsTo, ih]
      constructor
      · intro hPostings
        rcases hPostings with
          ⟨hBefore, hWrite, between, hRest, hLater⟩
        exact ⟨between, ⟨hBefore, hWrite, hRest⟩, hLater⟩
      · intro hParts
        rcases hParts with
          ⟨between, ⟨hBefore, hWrite, hRest⟩, hLater⟩
        exact ⟨hBefore, hWrite, between, hRest, hLater⟩

namespace LeadsTo

variable {tree after : Tree V}
variable {postings : List (Posting V)}

/- Adds keep a tree well formed. -/
theorem wellFormed
    (hLeads : tree.LeadsTo postings after)
    (hTree : tree.WellFormed) :
    after.WellFormed := by
  induction postings generalizing tree with
  | nil =>
      rwa [← leadsTo_nil_iff.mp hLeads]
  | cons posting rest ih =>
      rcases hLeads with ⟨rfl, hWrite, hRest⟩
      exact ih hRest (hWrite.wellFormed hTree)

/- Every add accounts for what it changes. -/
theorem accounts
    (hLeads : tree.LeadsTo postings after)
    (hTree : tree.WellFormed) :
    ∀ posting ∈ postings, posting.Accounts := by
  induction postings generalizing tree with
  | nil =>
      simp
  | cons posting rest ih =>
      rcases hLeads with ⟨rfl, hWrite, hRest⟩
      rw [List.forall_mem_cons]
      exact ⟨Posting.accounts_of_isWrite hTree hWrite,
        ih hRest (hWrite.wellFormed hTree)⟩

/- Adds on a subtree are adds on the whole tree. -/
theorem graft
    {whole node : Tree V}
    {place : List String}
    (hNode : whole.descend? place = some node)
    (hLeads : tree.LeadsTo postings after) :
    (whole.graft place tree).LeadsTo
      (postings.map (Posting.graft whole place))
      (whole.graft place after) := by
  induction postings generalizing tree with
  | nil =>
      rcases leadsTo_nil_iff.mp hLeads with rfl
      rfl
  | cons posting rest ih =>
      rcases hLeads with ⟨rfl, hWrite, hRest⟩
      exact ⟨rfl, hWrite.graft hNode, ih hRest⟩

end LeadsTo

/- The adds of a series lead to the tree after it. -/
private theorem leadsTo_postAll
    (tree : Tree V)
    (entries : List (Path × V)) :
    tree.LeadsTo (tree.postAll entries)
      (tree.addAll entries) := by
  induction entries generalizing tree with
  | nil =>
      rfl
  | cons entry rest ih =>
      exact ⟨rfl, ⟨entry.2, rfl⟩,
        ih (tree.add entry.1 entry.2).tree⟩

/- The adds of a change lead to the tree after it. -/
private theorem leadsTo_postings
    {tree : Tree V}
    (hTree : tree.WellFormed)
    {edit : Edit V}
    (hAdds : edit.onlyAdds = true) :
    tree.LeadsTo (tree.postings edit) (tree.edit edit) := by
  induction edit generalizing tree with
  | add key value =>
      exact leadsTo_postAll tree [(key, value)]
  | extend entries =>
      exact leadsTo_postAll tree entries
  | assign key value =>
      cases hAdds
  | within place inner ih =>
      rw [postings, Tree.edit]
      cases hPlace : tree.subtree place with
      | error _ =>
          rfl
      | ok found =>
          have hFound :=
            (subtree_eq_ok_iff tree place found).mp hPlace
          have hInner :=
            (ih (hTree.of_descend? hFound) hAdds).graft hFound
          rwa [hTree.graft_self hFound] at hInner

/- The adds of a run lead to the tree after it. -/
theorem leadsTo_runPostings
    {tree : Tree V}
    (hTree : tree.WellFormed)
    {edits : List (Edit V)}
    (hAdds : ∀ edit ∈ edits, edit.onlyAdds = true) :
    tree.LeadsTo (tree.runPostings edits)
      (tree.run edits) := by
  induction edits generalizing tree with
  | nil =>
      rfl
  | cons edit rest ih =>
      rcases List.forall_mem_cons.mp hAdds with
        ⟨hFirst, hRest⟩
      have hEdit := leadsTo_postings hTree hFirst
      exact (leadsTo_append_iff _ _ _ _).mpr
        ⟨tree.edit edit, hEdit,
          ih (hEdit.wellFormed hTree) hRest⟩

end Tree

end HierPath

------------------------------------------------------------
-- Balances
------------------------------------------------------------

namespace HierPath

universe u

namespace Event

/- The number of nodes that the event tells of. -/
def made : Event → Nat
  | .created _ nodes => nodes
  | _ => 0

/- The event tells that a value was replaced. -/
def isReplacement : Event → Bool
  | .replaced _ => true
  | _ => false

end Event

namespace Written

variable {V : Type u}

/- A write tells of the nodes that it has made. -/
private theorem sum_made_events
    (written : Written V) :
    (written.events.map Event.made).sum =
      written.created := by
  unfold events
  by_cases hMade : written.created > 0
  · cases written.previous <;> simp [hMade, Event.made]
  · cases written.previous <;>
      simp [Nat.eq_zero_of_not_pos hMade, Event.made]

/- It tells of a value that it has replaced. -/
private theorem countP_isReplacement_events
    (written : Written V) :
    written.events.countP Event.isReplacement =
      if written.previous.isSome then 1 else 0 := by
  unfold events
  by_cases hMade : written.created > 0
  · cases written.previous <;>
      simp [hMade, Event.isReplacement]
  · cases written.previous <;>
      simp [hMade, Event.isReplacement]

end Written

namespace Posting

variable {V : Type u}

/- What all of the adds tell. -/
def allEvents
    (postings : List (Posting V)) : List Event :=
  postings.flatMap fun posting => posting.written.events

/- The first of the adds tells first. -/
private theorem allEvents_cons
    (posting : Posting V)
    (rest : List (Posting V)) :
    allEvents (posting :: rest) =
      posting.written.events ++ allEvents rest :=
  List.flatMap_cons

end Posting

namespace Tree

variable {V : Type u}

/-
  The counts of the tree agree with what the adds have told
  and with the keys that they have stored.
-/
structure Balances
    (tree : Tree V)
    (postings : List (Posting V)) : Prop where
  stored :
    ∀ names,
      (tree.valueAt names).isSome = true ↔
        names ∈ postings.map Posting.names
  nodes_told :
    tree.nodeCount =
      1 + ((Posting.allEvents postings).map Event.made).sum
  nodes_named :
    tree.nodeCount =
      1 + (postings.flatMap fun posting =>
        posting.names.inits.tail).dedup.length
  keys_told :
    tree.count
        + (Posting.allEvents postings).countP
          Event.isReplacement =
      postings.length
  keys_named :
    tree.count =
      (postings.map Posting.names).dedup.length
  keys_walked : tree.count = tree.walk.toList.length
  empty_iff : tree.isEmpty = true ↔ tree.count = 0

/- The nodes are the top and those above and at keys. -/
private theorem WellFormed.isSome_descend?_iff
    {tree : Tree V}
    (hTree : tree.WellFormed)
    {postings : List (Posting V)}
    (hStored :
      ∀ names,
        (tree.valueAt names).isSome = true ↔
          names ∈ postings.map Posting.names)
    (above : List String) :
    (tree.descend? above).isSome = true ↔
      above = []
        ∨ above ∈ postings.flatMap fun posting =>
          posting.names.inits.tail := by
  rw [hTree.descend?_isSome_iff, List.mem_flatMap]
  by_cases hNone : above = []
  · simp [hNone]
  · rw [or_iff_right hNone, or_iff_right hNone]
    constructor
    · intro hKey
      rcases hKey with ⟨rest, value, hValue⟩
      have hWritten := (hStored (above ++ rest)).mp
        (Option.isSome_iff_exists.mpr ⟨value, hValue⟩)
      rcases List.mem_map.mp hWritten with
        ⟨posting, hPosting, hNames⟩
      refine ⟨posting, hPosting, ?_⟩
      rw [mem_tail_inits_iff, hNames]
      exact ⟨hNone, List.prefix_append above rest⟩
    · intro hPosting
      rcases hPosting with ⟨posting, hPosting, hAbove⟩
      rcases ((mem_tail_inits_iff _ _).mp hAbove).2 with
        ⟨rest, hNames⟩
      refine ⟨rest, Option.isSome_iff_exists.mp ?_⟩
      rw [hStored, hNames]
      exact List.mem_map_of_mem hPosting

namespace LeadsTo

variable {tree after : Tree V}
variable {postings : List (Posting V)}

/- The nodes that were told of are counted more. -/
private theorem nodeCount_eq
    (hLeads : tree.LeadsTo postings after)
    (hTree : tree.WellFormed) :
    after.nodeCount =
      tree.nodeCount
        + ((Posting.allEvents postings).map
          Event.made).sum := by
  induction postings generalizing tree with
  | nil =>
      rcases leadsTo_nil_iff.mp hLeads with rfl
      rfl
  | cons posting rest ih =>
      rcases hLeads with ⟨rfl, hWrite, hRest⟩
      have hFirst := Posting.accounts_of_isWrite hTree hWrite
      have hBelow := ih hRest (hWrite.wellFormed hTree)
      rw [Posting.allEvents_cons, List.map_append,
        List.sum_append, Written.sum_made_events,
        hFirst.made_missing, hBelow, hFirst.nodes_made,
        Nat.add_assoc]

/- A key is counted more for each add but replacements. -/
private theorem count_eq
    (hLeads : tree.LeadsTo postings after)
    (hTree : tree.WellFormed) :
    after.count
        + (Posting.allEvents postings).countP
          Event.isReplacement =
      tree.count + postings.length := by
  induction postings generalizing tree with
  | nil =>
      rcases leadsTo_nil_iff.mp hLeads with rfl
      rfl
  | cons posting rest ih =>
      rcases hLeads with ⟨rfl, hWrite, hRest⟩
      have hKeys :=
        (Posting.accounts_of_isWrite hTree hWrite).keys_made
      have hBelow := ih hRest (hWrite.wellFormed hTree)
      rw [Posting.allEvents_cons, List.countP_append,
        Written.countP_isReplacement_events,
        List.length_cons]
      cases hHeld : posting.written.previous <;>
        simp [hHeld] at hKeys ⊢ <;> omega

/- The keys are those that were there and those added. -/
private theorem isSome_valueAt_iff
    (hLeads : tree.LeadsTo postings after)
    (names : List String) :
    (after.valueAt names).isSome = true ↔
      names ∈ postings.map Posting.names
        ∨ (tree.valueAt names).isSome = true := by
  induction postings generalizing tree with
  | nil =>
      rcases leadsTo_nil_iff.mp hLeads with rfl
      simp
  | cons posting rest ih =>
      rcases hLeads with ⟨rfl, hWrite, hRest⟩
      rw [ih hRest, hWrite.isSome_valueAt_iff,
        List.map_cons, List.mem_cons]
      exact or_left_comm.trans or_assoc.symm

/- A tree that adds have built from its top is balanced. -/
theorem balances
    {root : Path}
    (hLeads : (ofRoot root).LeadsTo postings after) :
    after.Balances postings := by
  have hTop : (ofRoot root : Tree V).WellFormed :=
    wellFormed_ofRoot root
  have hAfter := hLeads.wellFormed hTop
  have hStored (names : List String) :
      (after.valueAt names).isSome = true ↔
        names ∈ postings.map Posting.names := by
    simpa using hLeads.isSome_valueAt_iff names
  have hNodesTold := hLeads.nodeCount_eq hTop
  have hKeysTold := hLeads.count_eq hTop
  have hWalked : after.count = after.walk.toList.length := by
    rw [toList_walk, Tree.count_eq]
  refine
    { stored := hStored
      nodes_told := hNodesTold
      nodes_named := ?_
      keys_told := ?_
      keys_named := ?_
      keys_walked := hWalked
      empty_iff := ?_ }
  · rcases hAfter.exists_names_of_nodeCount with
      ⟨distinct, hDistinct, hNodes, hCount⟩
    have hSame :
        distinct.Perm
          ([] :: (postings.flatMap fun posting =>
            posting.names.inits.tail).dedup) := by
      apply (List.perm_ext_iff_of_nodup hDistinct ?_).mpr
      · intro above
        rw [hNodes, hAfter.isSome_descend?_iff hStored,
          List.mem_cons, List.mem_dedup]
      · rw [List.nodup_cons, List.mem_dedup]
        refine ⟨?_, List.nodup_dedup _⟩
        intro hNone
        rcases List.mem_flatMap.mp hNone with
          ⟨posting, _, hAbove⟩
        exact ((mem_tail_inits_iff _ _).mp hAbove).1 rfl
    rw [hCount, hSame.length_eq, List.length_cons,
      Nat.add_comm]
  · exact hKeysTold.trans (Nat.zero_add _)
  · rcases hAfter.exists_names_of_count with
      ⟨distinct, hDistinct, hKeys, hCount⟩
    have hSame :
        distinct.Perm
          (postings.map Posting.names).dedup := by
      apply (List.perm_ext_iff_of_nodup hDistinct
        (List.nodup_dedup _)).mpr
      intro names
      rw [List.mem_dedup, ← hStored, hKeys,
        Option.isSome_iff_exists]
    rw [hCount, hSame.length_eq]
  · rw [isEmpty, Tree.count_eq, List.isEmpty_iff,
      List.length_eq_zero_iff]

end LeadsTo

end Tree

end HierPath

------------------------------------------------------------
-- Runs
------------------------------------------------------------

namespace HierPath

universe u

namespace Tree

variable {V : Type u}

/-
  In a run of adds on a tree without values, each add makes
  the nodes that were missing on its way from the top, and
  changes the counts, answers and tells accordingly. At
  every moment of the run, the counts agree with what was
  told and what was stored until then.
-/
theorem run_accounts
    (root : Path)
    {edits : List (Edit V)}
    (hAdds : ∀ edit ∈ edits, edit.onlyAdds = true) :
    let top : Tree V := ofRoot root
    (∀ posting ∈ top.runPostings edits, posting.Accounts)
      ∧ ∀ earlier later,
        top.runPostings edits = earlier ++ later →
          ∃ tree,
            top.LeadsTo earlier tree
              ∧ tree.LeadsTo later (top.run edits)
              ∧ tree.Balances earlier := by
  intro top
  have hLeads := leadsTo_runPostings
    (wellFormed_ofRoot root) hAdds
  refine ⟨hLeads.accounts (wellFormed_ofRoot root), ?_⟩
  intro earlier later hMoment
  rw [hMoment] at hLeads
  rcases (leadsTo_append_iff _ _ _ _).mp hLeads with
    ⟨tree, hEarlier, hLater⟩
  exact ⟨tree, hEarlier, hLater, hEarlier.balances⟩

/-
  Keys above and below each other, added in any order and
  on subtrees, leave as many nodes and keys as were told.
-/
theorem run_accounts_of_keys_on_one_way :
    let key : Path := ⟨.relative, ["b", "c"]⟩
    let edits : List (Edit Nat) :=
      [.add ⟨.absolute, ["a", "b"]⟩ 1,
        .within ⟨.absolute, ["a"]⟩
          (.extend [(key, 2), (⟨.relative, []⟩, 3)]),
        .add ⟨.relative, ["a", "b"]⟩ 4]
    let top : Tree Nat := ofRoot ⟨.relative, ["r"]⟩
    (∀ edit ∈ edits, edit.onlyAdds = true)
      ∧ Posting.allEvents (top.runPostings edits) =
        [.created ⟨.relative, ["r", "a", "b"]⟩ 2,
          .created ⟨.relative, ["r", "a", "b", "c"]⟩ 1,
          .replaced ⟨.relative, ["r", "a", "b"]⟩]
      ∧ (top.run edits).nodeCount = 4
      ∧ (top.run edits).count = 3 := by
  intro key edits top
  have hAdds : ∀ edit ∈ edits, edit.onlyAdds = true := by
    decide
  have hTold :
      Posting.allEvents (top.runPostings edits) =
        [.created ⟨.relative, ["r", "a", "b"]⟩ 2,
          .created ⟨.relative, ["r", "a", "b", "c"]⟩ 1,
          .replaced ⟨.relative, ["r", "a", "b"]⟩] := by
    rfl
  rcases (run_accounts ⟨.relative, ["r"]⟩ hAdds).2
      (top.runPostings edits) [] (List.append_nil _).symm with
    ⟨tree, _, hEnd, hBalances⟩
  rcases leadsTo_nil_iff.mp hEnd with rfl
  have hNodes := hBalances.nodes_told
  have hKeys := hBalances.keys_told
  rw [hTold] at hNodes hKeys
  exact ⟨hAdds, hTold, hNodes, Nat.add_right_cancel hKeys⟩

end Tree

end HierPath
