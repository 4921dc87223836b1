import HierPath.Proofs.KeyList.Reading
import HierPath.Proofs.Tree.Building
import HierPath.Proofs.Tree.Counting

/-
  What loading a key list gives, for every text and context.

  A text in which some key line cannot be read fails at the
  first such line. Any other text gives a tree that holds,
  at the segments that key lines lead to and nowhere else,
  the number of the last of these lines.

  A warning is given for each key line that leads to the
  segments of an earlier one, in the order of lines, and it
  names the last of the earlier ones: storing a key finds
  the number that has been stored before.

  Key definitions include:
    * `KeyList.storedEvents`
    * `KeyList.Repetition`
    * `KeyList.Repeats`
    * `KeyList.LastLineWins`
    * `KeyList.WarnsOfRepeats`

  Key theorems include:
    * `KeyList.loadLines_append`
    * `KeyList.load_of_readable`
    * `KeyList.load_of_unreadable`
    * `KeyList.eq_ofList_of_load`
    * `KeyList.mem_repetitions_iff`
    * `KeyList.load_last_line_wins`
-/

------------------------------------------------------------
-- Loading Line By Line
------------------------------------------------------------

namespace HierPath

namespace KeyList

/- The events of storing entries, one after another. -/
def storedEvents
    (tree : Tree Nat) : List (Path × Nat) → List Event
  | [] => []
  | (key, number) :: rest =>
      let written := tree.add key number
      storeEvents key number written
        ++ storedEvents written.tree rest

/-
  Lines in front that can all be read are stored, whatever
  comes after them.
-/
theorem loadLines_append
    {context : Option Path}
    {lines : List KeyLine}
    (hLines :
      ∀ line ∈ lines, ∃ key, line.read context = .ok key)
    (tree : Tree Nat)
    (rest : List KeyLine) :
    let entries := readings context lines
    let loading :=
      loadLines context (tree.addAll entries) rest
    loadLines context tree (lines ++ rest) =
      ⟨loading.outcome,
        storedEvents tree entries ++ loading.events⟩ := by
  induction lines generalizing tree with
  | nil =>
      rfl
  | cons line lines ih =>
      rcases hLines line List.mem_cons_self with ⟨key, hKey⟩
      have hRest := ih
        (fun other hOther =>
          hLines other (List.mem_cons_of_mem line hOther))
        (tree.add key line.number).tree
      have hRead :
          Path.parseIn context (String.ofList line.text) =
            .ok key := hKey
      simp only [List.cons_append, loadLines, hRead, hRest,
        readings_cons hKey, storedEvents, List.append_assoc]
      rfl

/- A line that cannot be read ends the loading. -/
theorem loadLines_of_error
    {context : Option Path}
    {line : KeyLine}
    {cause : PathError}
    (hRead : line.read context = .error cause)
    (tree : Tree Nat)
    (rest : List KeyLine) :
    loadLines context tree (line :: rest) =
      ⟨.error (.invalidKey line.number
        (String.ofList line.text) cause), []⟩ := by
  have hParse :
      Path.parseIn context (String.ofList line.text) =
        .error cause := hRead
  simp only [loadLines, hParse]

/- Where lines cannot be read, there is a first of them. -/
private theorem exists_first_failure
    {context : Option Path}
    {lines : List KeyLine}
    (hFails :
      ∃ line ∈ lines, ∃ cause,
        line.read context = .error cause) :
    ∃ readable line rest cause,
      lines = readable ++ line :: rest
        ∧ (∀ other ∈ readable, ∃ key,
          other.read context = .ok key)
        ∧ line.read context = .error cause := by
  induction lines with
  | nil =>
      rcases hFails with ⟨line, hLine, _⟩
      cases hLine
  | cons first lines ih =>
      cases hFirst : first.read context with
      | error cause =>
          exact ⟨[], first, lines, cause, rfl, by simp,
            hFirst⟩
      | ok key =>
          have hRest :
              ∃ line ∈ lines, ∃ cause,
                line.read context = .error cause := by
            rcases hFails with ⟨line, hLine, cause, hCause⟩
            rcases List.mem_cons.mp hLine with rfl | hLine
            · rw [hFirst] at hCause
              cases hCause
            · exact ⟨line, hLine, cause, hCause⟩
          rcases ih hRest with
            ⟨readable, line, rest, cause, rfl, hReadable,
              hCause⟩
          refine ⟨first :: readable, line, rest, cause, rfl,
            ?_, hCause⟩
          intro other hOther
          rcases List.mem_cons.mp hOther with rfl | hOther
          · exact ⟨key, hFirst⟩
          · exact hReadable other hOther

/-
  A text whose key lines can all be read gives the tree of
  its entries.
-/
theorem load_of_readable
    {context : Option Path}
    {content : String}
    (hLines :
      ¬ ∃ line cause, FailsAt context content line cause) :
    let entries := readings context (keyLines content)
    let tree : Tree Nat := Tree.ofList entries
    load context content =
      ⟨.ok tree,
        storedEvents .empty entries
          ++ [.loaded tree.count tree.nodeCount]⟩ := by
  have hReadable :
      ∀ line ∈ keyLines content, ∃ key,
        line.read context = .ok key := by
    intro line hLine
    cases hRead : line.read context with
    | ok key =>
        exact ⟨key, rfl⟩
    | error cause =>
        have hHas := (mem_keyLines_iff content line).mp hLine
        exact absurd ⟨line, cause, hHas, hRead⟩ hLines
  have hLoad := loadLines_append hReadable .empty []
  rw [List.append_nil] at hLoad
  exact hLoad

/-
  Any other text fails at the first of its key lines that
  cannot be read.
-/
theorem load_of_unreadable
    {context : Option Path}
    {content : String}
    (hFails :
      ∃ line cause, FailsAt context content line cause) :
    ∃ line cause, FailsAt context content line cause
      ∧ (∀ other why, FailsAt context content other why →
        line.number ≤ other.number)
      ∧ (load context content).outcome =
        .error (.invalidKey line.number
          (String.ofList line.text) cause) := by
  have hSome :
      ∃ line ∈ keyLines content, ∃ cause,
        line.read context = .error cause := by
    rcases hFails with ⟨line, cause, hHas, hCause⟩
    exact ⟨line, (mem_keyLines_iff content line).mpr hHas,
      cause, hCause⟩
  rcases exists_first_failure hSome with
    ⟨readable, line, rest, cause, hLines, hReadable, hCause⟩
  refine ⟨line, cause, ⟨?_, hCause⟩, ?_, ?_⟩
  · apply (mem_keyLines_iff content line).mp
    rw [hLines]
    simp
  · rintro other why ⟨hHas, hWhy⟩
    have hOther := (mem_keyLines_iff content other).mpr hHas
    rw [hLines] at hOther
    rcases List.mem_append.mp hOther with hOther | hOther
    · rcases hReadable other hOther with ⟨key, hKey⟩
      rw [hKey] at hWhy
      cases hWhy
    · have hAscending := pairwise_keyLines content
      rw [hLines] at hAscending
      rcases List.mem_cons.mp hOther with rfl | hOther
      · exact Nat.le_refl _
      · exact Nat.le_of_lt ((List.pairwise_cons.mp
          (List.pairwise_append.mp hAscending).2.1).1
            other hOther)
  · rw [load, hLines, loadLines_append hReadable,
      loadLines_of_error hCause]

/- A text that loads gives the tree of its entries. -/
theorem eq_ofList_of_load
    {context : Option Path}
    {content : String}
    {tree : Tree Nat}
    (hLoad : (load context content).outcome = .ok tree) :
    tree =
      Tree.ofList (readings context (keyLines content)) := by
  by_cases hFails :
      ∃ line cause, FailsAt context content line cause
  · rcases load_of_unreadable hFails with
      ⟨line, cause, _, _, hError⟩
    rw [hError] at hLoad
    cases hLoad
  · rw [load_of_readable hFails] at hLoad
    exact (Except.ok.inj hLoad).symm

end KeyList

end HierPath

------------------------------------------------------------
-- Repeated Keys
------------------------------------------------------------

namespace HierPath

namespace KeyList

/- A key line that leads where an earlier line has led. -/
structure Repetition where
  key : Path
  number : Nat
  earlier : Nat

namespace Repetition

/- The event that tells of a repetition. -/
def event
    (note : Repetition) : Event :=
  .repeated note.key note.number note.earlier

end Repetition

/- The events that are warnings. -/
def warnings
    (events : List Event) : List Event :=
  events.filter fun event => event.level = .warn

/- What storing entries finds repeated, in their order. -/
def repetitions
    (tree : Tree Nat) : List (Path × Nat) → List Repetition
  | [] => []
  | (key, number) :: rest =>
      ((tree.valueAt key.segments).map fun earlier =>
        ⟨key, number, earlier⟩).toList
        ++ repetitions (tree.add key number).tree rest

/- Warnings are found part by part. -/
theorem warnings_append
    (events others : List Event) :
    warnings (events ++ others) =
      warnings events ++ warnings others :=
  List.filter_append events others

/- A write on its own gives no warning. -/
private theorem warnings_events
    (written : Written Nat) :
    warnings written.events = [] := by
  unfold warnings Written.events
  split <;> split <;> rfl

/- Storing entries warns of what it finds repeated. -/
theorem warnings_storedEvents
    (tree : Tree Nat)
    (entries : List (Path × Nat)) :
    warnings (storedEvents tree entries) =
      (repetitions tree entries).map Repetition.event := by
  induction entries generalizing tree with
  | nil =>
      rfl
  | cons entry rest ih =>
      rcases entry with ⟨key, number⟩
      rw [storedEvents, repetitions, List.map_append,
        warnings_append, ih, storeEvents, warnings_append,
        warnings_events, Tree.add, Tree.previous_write]
      cases tree.valueAt key.segments <;> rfl

/-
  An entry is found repeated where the entries before it, or
  the tree at the start, have given a number to its names.
-/
theorem mem_repetitions_iff
    {tree : Tree Nat}
    {entries : List (Path × Nat)}
    {note : Repetition} :
    note ∈ repetitions tree entries ↔
      ∃ before after,
        entries = before ++ (note.key, note.number) :: after
          ∧ (tree.addAll before).valueAt note.key.segments =
            some note.earlier := by
  induction entries generalizing tree with
  | nil =>
      simp [repetitions]
  | cons entry rest ih =>
      rcases entry with ⟨key, number⟩
      rw [repetitions, List.mem_append, ih]
      constructor
      · rintro (hFirst | ⟨before, after, rfl, hValue⟩)
        · rw [Option.mem_toList,
            Option.map_eq_some_iff] at hFirst
          rcases hFirst with ⟨earlier, hValue, rfl⟩
          exact ⟨[], rest, rfl, hValue⟩
        · exact ⟨(key, number) :: before, after, rfl, hValue⟩
      · rintro ⟨before, after, hEntries, hValue⟩
        cases before with
        | nil =>
            left
            cases hEntries
            rw [Option.mem_toList, Option.map_eq_some_iff]
            exact ⟨note.earlier, hValue, rfl⟩
        | cons first before =>
            right
            cases hEntries
            exact ⟨before, after, rfl, hValue⟩

/- Repetitions come in the order of the entries. -/
theorem sublist_repetitions
    (tree : Tree Nat)
    (entries : List (Path × Nat)) :
    ((repetitions tree entries).map
        Repetition.number).Sublist
      (entries.map Prod.snd) := by
  induction entries generalizing tree with
  | nil =>
      exact List.Sublist.refl _
  | cons entry rest ih =>
      rcases entry with ⟨key, number⟩
      rw [repetitions, List.map_append, List.map_cons]
      cases tree.valueAt key.segments with
      | none => exact (ih _).cons number
      | some earlier => exact (ih _).cons_cons number

end KeyList

end HierPath

------------------------------------------------------------
-- The Last Line Wins
------------------------------------------------------------

namespace HierPath

namespace KeyList

/-
  A key line reads as the key, and the earlier line is the
  nearest before it that leads to the same segments.
-/
structure Repeats
    (context : Option Path)
    (content : String)
    (note : Repetition) : Prop where
  reads : Reads context content note.number note.key
  earlier_leads :
    LeadsTo context content note.earlier note.key.segments
  earlier_lt : note.earlier < note.number
  nearest :
    ∀ number,
      LeadsTo context content number note.key.segments →
        number < note.number → number ≤ note.earlier

/-
  The tree has its top at the root, and holds the number of
  the last key line that leads to the segments of a key.
-/
structure LastLineWins
    (context : Option Path)
    (content : String)
    (tree : Tree Nat) : Prop where
  at_root : tree.path = .root
  contains_iff :
    ∀ key : Path,
      tree.contains key = true ↔
        ∃ number,
          LeadsTo context content number key.segments
  get_iff :
    ∀ (key : Path) (number : Nat),
      tree.get key = .ok number ↔
        LeadsTo context content number key.segments
          ∧ ∀ other,
            LeadsTo context content other key.segments →
              other ≤ number
  count_distinct :
    ∃ distinct : List (List String),
      distinct.Nodup
        ∧ (∀ names, names ∈ distinct ↔
          ∃ number, LeadsTo context content number names)
        ∧ tree.count = distinct.length

/-
  The warnings are those of the repeating lines, one for
  each, in the order of lines.
-/
def WarnsOfRepeats
    (context : Option Path)
    (content : String)
    (events : List Event) : Prop :=
  ∃ notes : List Repetition,
    warnings events = notes.map Repetition.event
      ∧ (notes.Pairwise fun note other =>
        note.number < other.number)
      ∧ ∀ note, note ∈ notes ↔ Repeats context content note

/- Names are led to by the entries of the text. -/
private theorem leadsTo_iff
    {context : Option Path}
    {content : String}
    {number : Nat}
    {names : List String} :
    LeadsTo context content number names ↔
      ∃ key,
        (key, number) ∈ readings context (keyLines content)
          ∧ key.segments = names := by
  simp only [mem_readings_keyLines_iff]
  rfl

/- The tree of the entries of a text holds the last lines. -/
private theorem valueAt_eq_some_iff
    {context : Option Path}
    {content : String}
    {names : List String}
    {number : Nat} :
    (Tree.ofList
        (readings context (keyLines content))).valueAt names =
      some number ↔
      LeadsTo context content number names
        ∧ ∀ other, LeadsTo context content other names →
          other ≤ number := by
  rw [Tree.valueAt_ofList, lastValue_eq_some_iff_greatest
    (pairwise_readings context content)]
  simp only [leadsTo_iff, forall_exists_index, and_imp]

/- The tree of the entries of a text holds something. -/
private theorem exists_value_iff
    {context : Option Path}
    {content : String}
    {names : List String} :
    (∃ number,
      (Tree.ofList
          (readings context (keyLines content))).valueAt
            names =
        some number) ↔
      ∃ number, LeadsTo context content number names := by
  constructor
  · rintro ⟨number, hValue⟩
    exact ⟨number, (valueAt_eq_some_iff.mp hValue).1⟩
  · rintro ⟨number, hLeads⟩
    rcases leadsTo_iff.mp hLeads with ⟨key, hEntry, hNames⟩
    rw [← Option.ne_none_iff_exists', Tree.valueAt_ofList,
      ne_eq, Tree.lastValue_eq_none_iff]
    intro hNone
    exact hNone (key, number) hEntry hNames

/- The tree of the entries of a text holds its last lines. -/
theorem lastLineWins_ofList
    (context : Option Path)
    (content : String) :
    LastLineWins context content
      (Tree.ofList
        (readings context (keyLines content))) := by
  let entries := readings context (keyLines content)
  have hTree := Tree.wellFormed_ofList entries
  refine
    { at_root := Tree.path_ofList entries
      contains_iff := ?_
      get_iff := ?_
      count_distinct := ?_ }
  · intro key
    rw [Tree.contains_eq, Option.isSome_iff_exists]
    exact exists_value_iff
  · intro key number
    rw [Tree.get_eq_ok_iff]
    exact valueAt_eq_some_iff
  · rcases hTree.exists_names_of_count with
      ⟨distinct, hNodup, hDistinct, hCount⟩
    refine ⟨distinct, hNodup, ?_, hCount⟩
    intro names
    rw [hDistinct]
    exact exists_value_iff

/- Entries before a place are those of smaller numbers. -/
private theorem mem_before_iff
    {before after : List (Path × Nat)}
    {entry other : Path × Nat}
    (hAscending :
      (before ++ entry :: after).Pairwise fun first second =>
        first.2 < second.2) :
    other ∈ before ↔
      other ∈ before ++ entry :: after
        ∧ other.2 < entry.2 := by
  rcases List.pairwise_append.mp hAscending with
    ⟨_, hAfter, hBefore⟩
  constructor
  · intro hOther
    exact ⟨List.mem_append_left _ hOther,
      hBefore other hOther entry List.mem_cons_self⟩
  · rintro ⟨hOther, hLess⟩
    rcases List.mem_append.mp hOther with hOther | hOther
    · exact hOther
    · rcases List.mem_cons.mp hOther with rfl | hOther
      · exact absurd hLess (Nat.lt_irrefl _)
      · have hMore :=
          (List.pairwise_cons.mp hAfter).1 other hOther
        exact absurd hLess (Nat.lt_asymm hMore)

/-
  The entries before a place in the text leave the last of
  the lines with smaller numbers.
-/
private theorem valueAt_before_iff
    {context : Option Path}
    {content : String}
    {before after : List (Path × Nat)}
    {entry : Path × Nat}
    (hEntries :
      readings context (keyLines content) =
        before ++ entry :: after)
    {names : List String}
    {earlier : Nat} :
    (Tree.empty.addAll before).valueAt names =
        some earlier ↔
      (LeadsTo context content earlier names
          ∧ earlier < entry.2)
        ∧ ∀ number, LeadsTo context content number names →
          number < entry.2 → number ≤ earlier := by
  have hAscending := pairwise_readings context content
  rw [hEntries] at hAscending
  have hBefore :
      before.Pairwise fun entry other =>
        entry.2 < other.2 :=
    (List.pairwise_append.mp hAscending).1
  have hLeads (number : Nat) :
      (∃ key, (key, number) ∈ before
          ∧ key.segments = names) ↔
        LeadsTo context content number names
          ∧ number < entry.2 := by
    rw [leadsTo_iff, hEntries, ← exists_and_right]
    simp only [mem_before_iff hAscending, and_right_comm]
  change (Tree.ofList before).valueAt names =
    some earlier ↔ _
  rw [Tree.valueAt_ofList,
    lastValue_eq_some_iff_greatest hBefore, hLeads]
  refine and_congr_right fun _ =>
    forall_congr' fun number => ?_
  rw [← and_imp, ← hLeads]
  simp only [forall_exists_index, and_imp]

/- What storing the entries finds repeated are repeats. -/
private theorem mem_repetitions_iff_repeats
    (context : Option Path)
    (content : String)
    (note : Repetition) :
    note ∈ repetitions .empty
        (readings context (keyLines content)) ↔
      Repeats context content note := by
  rw [mem_repetitions_iff]
  constructor
  · rintro ⟨before, after, hEntries, hValue⟩
    rcases (valueAt_before_iff hEntries).mp hValue with
      ⟨⟨hLeads, hLess⟩, hNearest⟩
    refine
      { reads := ?_
        earlier_leads := hLeads
        earlier_lt := hLess
        nearest := hNearest }
    apply mem_readings_keyLines_iff.mp
    rw [hEntries]
    exact List.mem_append_right _ List.mem_cons_self
  · intro hRepeats
    rcases List.append_of_mem
        (mem_readings_keyLines_iff.mpr hRepeats.reads) with
      ⟨before, after, hEntries⟩
    refine ⟨before, after, hEntries, ?_⟩
    exact (valueAt_before_iff hEntries).mpr
      ⟨⟨hRepeats.earlier_leads, hRepeats.earlier_lt⟩,
        hRepeats.nearest⟩

/- Storing the entries of a text warns of its repeats. -/
theorem warnsOfRepeats_storedEvents
    (context : Option Path)
    (content : String)
    (keys nodes : Nat) :
    WarnsOfRepeats context content
      (storedEvents .empty
          (readings context (keyLines content))
        ++ [.loaded keys nodes]) := by
  let entries := readings context (keyLines content)
  refine ⟨repetitions .empty entries, ?_, ?_,
    mem_repetitions_iff_repeats context content⟩
  · rw [warnings_append, warnings_storedEvents]
    exact List.append_nil _
  · rw [← List.pairwise_map (f := Repetition.number)
      (R := fun number other : Nat => number < other)]
    refine List.Pairwise.sublist
      (sublist_repetitions .empty entries) ?_
    rw [List.pairwise_map]
    exact pairwise_readings context content

/-
  Loading a text fails at the first key line that cannot be
  read, with its number, its trimmed text and the cause.
  Where there is none, the tree holds the last line of each
  key, and every repeat has been warned of.
-/
theorem load_last_line_wins
    (context : Option Path)
    (content : String) :
    let loading := load context content
    let fails :=
      ∃ line cause, FailsAt context content line cause
    (fails →
      ∃ line cause, FailsAt context content line cause
        ∧ (∀ other why, FailsAt context content other why →
          line.number ≤ other.number)
        ∧ loading.outcome =
          .error (.invalidKey line.number
            (String.ofList line.text) cause))
      ∧ (¬ fails →
        ∃ tree, loading.outcome = .ok tree
          ∧ LastLineWins context content tree
          ∧ WarnsOfRepeats context content
            loading.events) := by
  intro loading fails
  constructor
  · exact load_of_unreadable
  · intro hReadable
    have hLoad := load_of_readable hReadable
    have hEvents : loading.events = _ :=
      congrArg Loading.events hLoad
    refine ⟨_, congrArg Loading.outcome hLoad,
      lastLineWins_ofList context content, ?_⟩
    rw [hEvents]
    exact warnsOfRepeats_storedEvents context content _ _

/-
  Comments count as lines, and a relative key repeats an
  absolute one.
-/
example :
    warnings (load none "/a\n# b\n\r\n a \r\n/a").events =
      [.repeated ⟨.relative, ["a"]⟩ 4 1,
        .repeated ⟨.absolute, ["a"]⟩ 5 4] := by
  decide +kernel

end KeyList

end HierPath
