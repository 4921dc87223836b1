import HierPath.Datum
import HierPath.Proofs.Path.Climbing
import HierPath.Proofs.Path.RoundTrip
import HierPath.Proofs.Tree.Editing

/-
  The paths that can be made, and their texts.

  The segments of a path that can be made are names: this
  is what each way of making paths keeps, down to the nodes
  of trees, whose paths consist of names from keys. So every
  such path reads back from its text, and it is the only one
  with this text.

  Key definitions include:
    * `Edit.keys`
    * `Path.Constructible`

  Key theorems include:
    * `Path.named_of_parseIn`
    * `Tree.named_path_of_run`
    * `Path.Constructible.named`
    * `Path.Named.constructible`
    * `Path.Constructible.canonical`
-/

------------------------------------------------------------
-- Ways Of Making Paths
------------------------------------------------------------

namespace HierPath

universe u

/- The keys that a change writes at. -/
def Edit.keys
    {V : Type u} : Edit V → List Path
  | .add key _ => [key]
  | .extend entries => entries.map Prod.fst
  | .assign key _ => [key]
  | .within _ inner => inner.keys

namespace Path

/-
  The paths that can be made, one constructor for each way
  of making them: by reading, from other paths, from stored
  data, and as the paths of the nodes of a tree.
-/
inductive Constructible : Path → Prop where
  | root :
      Constructible root
  | relativeRoot :
      Constructible relativeRoot
  | read
      {context : Option Path}
      {raw : String}
      {p : Path}
      (hContext : ∀ c ∈ context, Constructible c)
      (hRead : parseIn context raw = .ok p) :
      Constructible p
  | child
      {p q : Path}
      {raw : String}
      (hPath : Constructible p)
      (hChild : p.child raw = .ok q) :
      Constructible q
  | push
      {p q : Path}
      {name : String}
      (hPath : Constructible p)
      (hPush : p.push name = .ok q) :
      Constructible q
  | join
      {p q : Path}
      (hPath : Constructible p)
      (hOther : Constructible q) :
      Constructible (p.join q)
  | parent
      {p q : Path}
      (hPath : Constructible p)
      (hParent : p.parent? = some q) :
      Constructible q
  | relativeTo
      {p q r : Path}
      (hPath : Constructible p)
      (hOther : Constructible q)
      (hRelative : p.relativeTo? q = some r) :
      Constructible r
  | ancestor
      {p q : Path}
      {n : Nat}
      (hPath : Constructible p)
      (hAncestor : q ∈ (p.ancestors.advance n).1) :
      Constructible q
  | stored
      {datum : Datum}
      {p : Path}
      (hStored : ofDatum datum = .ok p) :
      Constructible p
  | node
      {V : Type}
      {top : Path}
      {edits : List (Edit V)}
      {names : List String}
      {found : Tree V}
      (hTop : Constructible top)
      (hKeys :
        ∀ edit ∈ edits, ∀ key ∈ edit.keys,
          Constructible key)
      (hFound :
        ((Tree.ofRoot top).run edits).descend? names =
          some found) :
      Constructible found.path

end Path

end HierPath

------------------------------------------------------------
-- Names In Paths That Are Read
------------------------------------------------------------

namespace HierPath

namespace Path

/- A step down leads to a name. -/
private theorem isName_of_ofPiece
    {piece name : String}
    (hPiece : Move.ofPiece piece = some (.down name)) :
    Segment.isName name = true := by
  unfold Move.ofPiece at hPiece
  split at hPiece
  next =>
    simp at hPiece
  next =>
    split at hPiece
    next hName =>
      cases hPiece
      exact hName
    next =>
      simp at hPiece

/- Steps lead to old names and names that they go down to. -/
private theorem mem_of_run
    {names reached : List String}
    {moves : List Move}
    (hRun : Move.run names moves = some reached)
    {name : String}
    (hName : name ∈ reached) :
    name ∈ names ∨ .down name ∈ moves := by
  induction moves generalizing names with
  | nil =>
      have hSame : names = reached := by
        simpa [Move.run] using hRun
      exact Or.inl (hSame ▸ hName)
  | cons move rest ih =>
      rw [Move.run, List.foldlM_cons] at hRun
      cases move with
      | down below =>
          have hRest :
              Move.run (below :: names) rest =
                some reached := hRun
          rcases ih hRest with hOld | hNew
          · rcases List.mem_cons.mp hOld with rfl | hOld
            · exact Or.inr List.mem_cons_self
            · exact Or.inl hOld
          · exact Or.inr (List.mem_cons_of_mem _ hNew)
      | up =>
          cases names with
          | nil =>
              simp [Move.apply] at hRun
          | cons last above =>
              have hRest :
                  Move.run above rest = some reached := hRun
              rcases ih hRest with hOld | hNew
              · exact Or.inl (List.mem_cons_of_mem _ hOld)
              · exact Or.inr (List.mem_cons_of_mem _ hNew)

/- A path that is read has names for segments. -/
theorem named_of_parseIn
    {context : Option Path}
    (hContext : ∀ c ∈ context, c.Named)
    {raw : String}
    {p : Path}
    (hRead : parseIn context raw = .ok p) :
    p.Named := by
  have hRaw : raw ≠ "" := by
    rintro rfl
    cases hRead
  rw [parseIn_eq_resolve context hRaw] at hRead
  have hStart : (startOf context raw).Named := by
    unfold startOf
    cases isRooted raw with
    | true =>
        simp [Named, root]
    | false =>
        cases context with
        | none => simp [Named, relativeRoot]
        | some c => exact hContext c rfl
  cases hOpen :
      Pieces.isOpenAfter false (remainder raw) with
  | true =>
      rw [resolve_of_open raw _ hOpen] at hRead
      split at hRead <;> simp at hRead
  | false =>
      rw [resolve_of_closed raw _ hOpen] at hRead
      split at hRead
      next =>
        simp at hRead
      next reached hRun =>
        cases hRead
        intro name hName
        have hReached : name ∈ reached := by
          simpa using hName
        rcases mem_of_run hRun hReached with hOld | hNew
        · exact hStart name (by simpa using hOld)
        · rcases List.mem_filterMap.mp hNew with
            ⟨piece, _, hPiece⟩
          exact isName_of_ofPiece hPiece

end Path

end HierPath

------------------------------------------------------------
-- Names In Trees
------------------------------------------------------------

namespace HierPath

universe u

namespace Ledger

variable {V : Type u}

/- Everything is written at names. -/
def Named
    (ledger : Ledger V) : Prop :=
  ∀ entry ∈ ledger, ∀ name ∈ entry.1,
    Segment.isName name = true

/- Writes below names at keys of names are at names. -/
private theorem named_recordAll
    {base : List String}
    (hBase : ∀ name ∈ base, Segment.isName name = true)
    {ledger : Ledger V}
    (hLedger : ledger.Named)
    {entries : List (Path × V)}
    (hKeys : ∀ key ∈ entries.map Prod.fst, key.Named) :
    (recordAll base ledger entries).Named := by
  induction entries generalizing ledger with
  | nil =>
      exact hLedger
  | cons entry rest ih =>
      simp only [List.map_cons, List.mem_cons,
        forall_eq_or_imp] at hKeys
      refine ih ?_ hKeys.2
      intro written hWritten
      rcases List.mem_cons.mp hWritten with rfl | hOld
      · intro name hName
        rcases List.mem_append.mp hName with hName | hName
        · exact hBase name hName
        · exact hKeys.1 name hName
      · exact hLedger written hOld

/- Names that are reached have been written. -/
private theorem named_of_reaches
    {ledger : Ledger V}
    (hLedger : ledger.Named)
    {names : List String}
    (hReaches : ledger.reaches names = true) :
    ∀ name ∈ names, Segment.isName name = true := by
  intro name hName
  simp only [reaches, Bool.or_eq_true, List.isEmpty_iff,
    List.any_eq_true, List.isPrefixOf_iff_prefix]
    at hReaches
  rcases hReaches with rfl | ⟨entry, hEntry, hPrefix⟩
  · simp at hName
  · exact hLedger entry hEntry name (hPrefix.subset hName)

/- Changes at keys of names are at names. -/
private theorem named_record
    {base : List String}
    (hBase : ∀ name ∈ base, Segment.isName name = true)
    {ledger : Ledger V}
    (hLedger : ledger.Named)
    {edit : Edit V}
    (hKeys : ∀ key ∈ edit.keys, key.Named) :
    (record base ledger edit).Named := by
  induction edit generalizing base with
  | add key value =>
      have hEntries :
          ∀ other ∈ [(key, value)].map Prod.fst,
            other.Named := hKeys
      exact named_recordAll hBase hLedger hEntries
  | extend entries =>
      exact named_recordAll hBase hLedger hKeys
  | assign key value =>
      unfold record
      split
      next =>
        have hEntries :
            ∀ other ∈ [(key, value)].map Prod.fst,
              other.Named := hKeys
        exact named_recordAll hBase hLedger hEntries
      next =>
        exact hLedger
  | within place inner ih =>
      unfold record
      split
      next hReaches =>
        exact ih (named_of_reaches hLedger hReaches) hKeys
      next =>
        exact hLedger

/- A run of changes at keys of names writes at names. -/
theorem named_ofEdits
    {edits : List (Edit V)}
    (hKeys :
      ∀ edit ∈ edits, ∀ key ∈ edit.keys, key.Named) :
    (ofEdits edits).Named := by
  have hRun :
      ∀ ledger : Ledger V, ledger.Named →
        (edits.foldl (record []) ledger).Named := by
    induction edits with
    | nil =>
        intro ledger hLedger
        exact hLedger
    | cons edit rest ih =>
        intro ledger hLedger
        simp only [List.mem_cons, forall_eq_or_imp] at hKeys
        exact ih hKeys.2 _
          (named_record (by simp) hLedger hKeys.1)
  exact hRun [] (by simp [Named])

end Ledger

namespace Tree

variable {V : Type u}

/- The nodes of a tree have names below the path of its top. -/
theorem named_path_of_run
    {top : Path}
    (hTop : top.Named)
    {edits : List (Edit V)}
    (hKeys :
      ∀ edit ∈ edits, ∀ key ∈ edit.keys, key.Named)
    {names : List String}
    {found : Tree V}
    (hFound :
      ((ofRoot top).run edits).descend? names =
        some found) :
    found.path.Named := by
  rw [Ledger.run_eq_replay] at hFound
  have hPath :=
    (Ledger.wellFormed_replay top _).path_eq hFound
  have hReaches :
      (Ledger.ofEdits edits).reaches names = true := by
    rw [← Ledger.descend?_replay_isSome top, hFound]
    rfl
  have hNames := Ledger.named_of_reaches
    (Ledger.named_ofEdits hKeys) hReaches
  rw [hPath, Ledger.path_replay]
  intro name hName
  rcases List.mem_append.mp hName with hName | hName
  · exact hTop name hName
  · exact hNames name hName

end Tree

end HierPath

------------------------------------------------------------
-- Stored Texts
------------------------------------------------------------

namespace HierPath

namespace Datum

/- What is read from a stored text is read from the text. -/
theorem readText_text
    {α : Type}
    {read : String → Except PathError α}
    {raw : String}
    {a : α} :
    readText read (.text raw) = .ok a ↔
      read raw = .ok a := by
  change (read raw).mapError _ = _ ↔ _
  cases read raw with
  | ok found => simp [Except.mapError]
  | error cause => simp [Except.mapError]

end Datum

end HierPath

------------------------------------------------------------
-- Canonical Texts
------------------------------------------------------------

namespace HierPath

namespace Path

/- A path on the way up is a top of the path at the start. -/
private theorem mem_advance
    {climb : Ancestors}
    {n : Nat}
    {q : Path}
    (hAncestor : q ∈ (climb.advance n).1) :
    ∃ i, q = climb.path.top i := by
  rw [Ancestors.advance_eq, List.mem_map] at hAncestor
  rcases hAncestor with ⟨i, _, rfl⟩
  exact ⟨i, rfl⟩

/- A top of a path has no other segments. -/
private theorem Named.top
    {p : Path}
    (hNamed : p.Named)
    (n : Nat) :
    (p.top n).Named := by
  intro name hName
  exact hNamed name (List.mem_of_mem_take hName)

/- Texts alone store paths, namely those read from them. -/
theorem ofDatum_text
    {raw : String}
    {p : Path} :
    ofDatum (.text raw) = .ok p ↔ parse raw = .ok p :=
  Datum.readText_text

/- The segments of a path that can be made are names. -/
theorem Constructible.named
    {p : Path}
    (hPath : Constructible p) :
    p.Named := by
  induction hPath with
  | root =>
      simp [Named, Path.root]
  | relativeRoot =>
      simp [Named, Path.relativeRoot]
  | read _ hRead hContext =>
      exact named_of_parseIn hContext hRead
  | child _ hChild hPath =>
      exact named_of_parseIn (by simpa using hPath) hChild
  | @push p q name _ hPush hPath =>
      unfold Path.push at hPush
      split at hPush
      next hName =>
        cases hPush
        intro other hOther
        rcases List.mem_append.mp hOther with
          hOther | hOther
        · exact hPath other hOther
        · rw [List.mem_singleton.mp hOther]
          exact hName
      next =>
        simp at hPush
  | join _ _ hPath hOther =>
      intro name hName
      rcases List.mem_append.mp hName with hName | hName
      · exact hPath name hName
      · exact hOther name hName
  | parent _ hParent hPath =>
      unfold parent? at hParent
      split at hParent
      next =>
        simp at hParent
      next =>
        cases hParent
        exact hPath.top _
  | relativeTo _ _ hRelative hPath _ =>
      unfold relativeTo? at hRelative
      split at hRelative
      next =>
        cases hRelative
        intro name hName
        exact hPath name (List.mem_of_mem_drop hName)
      next =>
        simp at hRelative
  | ancestor _ hAncestor hPath =>
      rcases mem_advance hAncestor with ⟨i, rfl⟩
      exact hPath.top i
  | @stored datum p hStored =>
      cases datum with
      | text raw =>
          rw [ofDatum_text] at hStored
          exact named_of_parseIn (by simp) hStored
      | null | boolean | integer | sequence | map =>
          cases hStored
  | node _ _ hFound hTop hKeys =>
      exact Tree.named_path_of_run hTop hKeys hFound

/- Any path of names can be made, by reading its text. -/
theorem Named.constructible
    {p : Path}
    (hNamed : p.Named) :
    Constructible p :=
  .read (by simp) (parseIn_text hNamed (Or.inr rfl))

/-
  Every path that can be made reads back from its text, in
  whatever context if it is absolute. Such paths are told
  apart by their texts, and a stored one is found again.
-/
theorem Constructible.canonical
    {p : Path}
    (hPath : Constructible p) :
    (∀ name ∈ p.segments,
      name ≠ "" ∧ name ≠ "." ∧ name ≠ "..")
      ∧ parse p.text = .ok p
      ∧ (p.isAbsolute = true →
        ∀ context, parseIn context p.text = .ok p)
      ∧ (∀ q, Constructible q →
        (p = q ↔ p.text = q.text))
      ∧ ofDatum p.toDatum = .ok p := by
  have hRead : parse p.text = .ok p :=
    parseIn_text hPath.named (Or.inr rfl)
  refine ⟨?_, hRead, ?_, ?_, ofDatum_text.mpr hRead⟩
  · intro name hName
    have hIsName := hPath.named name hName
    simpa [Segment.isName, and_assoc] using hIsName
  · intro hAbsolute context
    exact parseIn_text hPath.named (Or.inl hAbsolute)
  · intro q hOther
    constructor
    · rintro rfl
      rfl
    · intro hText
      have hReadOther : parse q.text = .ok q :=
        parseIn_text hOther.named (Or.inr rfl)
      rw [← hText, hRead] at hReadOther
      exact Except.ok.inj hReadOther

/-
  The path of a separator and of three dots, where a climb
  has been read and the dots have been pushed.
-/
theorem canonical_of_marks :
    parse "x/../a\\/b" = .ok ⟨.relative, ["a/b"]⟩
      ∧ push ⟨.relative, ["a/b"]⟩ "..." =
        .ok ⟨.relative, ["a/b", "..."]⟩
      ∧ parse (text ⟨.relative, ["a/b", "..."]⟩) =
        .ok ⟨.relative, ["a/b", "..."]⟩ := by
  have hRead :
      parseIn none "x/../a\\/b" =
        .ok ⟨.relative, ["a/b"]⟩ := by
    decide +kernel
  have hPush :
      push ⟨.relative, ["a/b"]⟩ "..." =
        .ok ⟨.relative, ["a/b", "..."]⟩ := by
    decide +kernel
  have hPath :
      Constructible ⟨.relative, ["a/b", "..."]⟩ :=
    .push (.read (by simp) hRead) hPush
  exact ⟨hRead, hPush, (Constructible.canonical hPath).2.1⟩

end Path

end HierPath
