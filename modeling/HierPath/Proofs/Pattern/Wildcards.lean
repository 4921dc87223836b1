import HierPath.Proofs.Pattern.Starless

/-
  What a segment with stars accepts.

  The stars of a segment cut it into plain runs. A text
  fills the runs when it is made of them in their order,
  with some text in the place of each star, and a glob
  accepts exactly the texts that fill its runs.

  A glob takes every inner run at its first occurrence. No
  other occurrence does better: whatever ends a text also
  ends a longer text, and the star that comes next takes
  the difference.

  The expression that a glob is written as accepts the same
  texts. A marked character stands for itself there, a lazy
  dot-star for any run of characters, and the end sign for
  the end of the text.

  A segment with stars is refused when its glob takes too
  much room: so much for each star, and so much for each
  byte of the other characters.

  Key definitions include:
    * `Glob.CutsAtStars`
    * `Glob.Fills`
    * `Expression.Reads`
    * `Expression.Matches`

  Key theorems include:
    * `Glob.cutsAtStars_runsOf`
    * `Glob.size_ofSegment`
    * `Glob.accepts_iff_fills`
    * `Glob.matches_regex_iff_fills`
    * `Step.ofSegment_eq_error_iff`
    * `Step.accepts_self`
    * `Step.segment_language`
-/

------------------------------------------------------------
-- Runs Around Stars
------------------------------------------------------------

namespace HierPath

namespace Glob

/- The runs are what stands around the stars of a text. -/
structure CutsAtStars
    (chars : List Char)
    (runs : List (List Char)) : Prop where
  starless : ∀ run ∈ runs, '*' ∉ run
  joined : ['*'].intercalate runs = chars

/- A character is put in front of the runs of the rest. -/
private theorem runsOf_cons
    (c : Char)
    (rest : List Char) :
    runsOf (c :: rest) = putRun c (runsOf rest) :=
  rfl

/- Every text has a run. -/
theorem runsOf_ne_nil
    (chars : List Char) :
    runsOf chars ≠ [] := by
  cases chars with
  | nil =>
      exact List.cons_ne_nil [] []
  | cons c rest =>
      rw [runsOf_cons]
      unfold putRun
      split
      · exact List.cons_ne_nil [] _
      · split <;> exact List.cons_ne_nil _ _

/-
  Induction on a text and its runs. The empty text has an
  empty run, a star starts a run of its own, and a plain
  character goes in front of the first run.
-/
private theorem runsOf_induction
    {motive : List Char → List (List Char) → Prop}
    (empty : motive [] [[]])
    (star : ∀ rest runs,
      motive rest runs → motive ('*' :: rest) ([] :: runs))
    (plain : ∀ c rest run runs, c ≠ '*' →
      motive rest (run :: runs) →
        motive (c :: rest) ((c :: run) :: runs))
    (chars : List Char) :
    motive chars (runsOf chars) := by
  induction chars with
  | nil =>
      exact empty
  | cons c rest ih =>
      rw [runsOf_cons]
      unfold putRun
      by_cases hStar : c = '*'
      · rw [if_pos hStar, hStar]
        exact star rest (runsOf rest) ih
      · rw [if_neg hStar]
        cases hRuns : runsOf rest with
        | nil =>
            exact absurd hRuns (runsOf_ne_nil rest)
        | cons run runs =>
            rw [hRuns] at ih
            exact plain c rest run runs hStar ih

/- The runs of a text are its pieces between stars. -/
private theorem runsOf_eq_splitOn
    (chars : List Char) :
    runsOf chars = chars.splitOn '*' := by
  induction chars using runsOf_induction with
  | empty =>
      rfl
  | star rest runs ih =>
      rw [List.splitOn_cons_eq_if_modifyHead, ih]
      simp
  | plain c rest run runs hPlain ih =>
      rw [List.splitOn_cons_eq_if_modifyHead, ← ih]
      simp [hPlain]

/- The runs of a text are cut at its stars. -/
theorem cutsAtStars_runsOf
    (chars : List Char) :
    CutsAtStars chars (runsOf chars) where
  starless := by
    induction chars using runsOf_induction with
    | empty =>
        simp
    | star rest runs ih =>
        simpa using ih
    | plain c rest run runs hPlain ih =>
        simpa [Ne.symm hPlain] using ih
  joined := by
    rw [runsOf_eq_splitOn, List.intercalate_splitOn]

/- There is one run more than there are stars. -/
private theorem length_runsOf
    (chars : List Char) :
    (runsOf chars).length = chars.count '*' + 1 := by
  induction chars using runsOf_induction with
  | empty =>
      rfl
  | star rest runs ih =>
      rw [List.length_cons, ih, List.count_cons_self]
  | plain c rest run runs hPlain ih =>
      rw [List.count_cons_of_ne hPlain, ← ih,
        List.length_cons, List.length_cons]

/- The runs hold the plain characters in their order. -/
private theorem flatten_runsOf
    (chars : List Char) :
    (runsOf chars).flatten = chars.filter (· ≠ '*') := by
  induction chars using runsOf_induction with
  | empty =>
      rfl
  | star rest runs ih =>
      rw [List.flatten_cons, ih]
      simp
  | plain c rest run runs hPlain ih =>
      rw [List.filter_cons_of_pos (by simp [hPlain]), ← ih]
      rfl

/-
  The size of a segment's glob depends on the number of its
  stars and on the bytes of its other characters.
-/
theorem size_ofSegment
    (segment : String) :
    (ofSegment segment).size =
      frameSize + starSize * segment.toList.count '*'
        + stateSize * encodedLength
          (segment.toList.filter (· ≠ '*')) := by
  simp only [size, ofSegment, length_runsOf, flatten_runsOf,
    Nat.add_sub_cancel]

end Glob

end HierPath

------------------------------------------------------------
-- Filled Stars
------------------------------------------------------------

namespace HierPath

namespace Glob

/-
  The text is made of the runs in their order, with a filler
  in the place of each star between them.
-/
def Fills
    (runs : List (List Char))
    (text : List Char) : Prop :=
  ∃ first rest fillers,
    runs = first :: rest
      ∧ fillers.length = rest.length
      ∧ text =
        first
          ++ (List.zipWith (· ++ ·) fillers rest).flatten

/- Without a star, the one run is the whole text. -/
theorem fills_singleton
    {run text : List Char} :
    Fills [run] text ↔ text = run := by
  constructor
  · rintro ⟨_, _, fillers, hRuns, _, rfl⟩
    cases hRuns
    rw [List.zipWith_nil_right, List.flatten_nil,
      List.append_nil]
  · rintro rfl
    exact ⟨text, [], [], rfl, rfl, by simp⟩

/-
  The first run starts the text, and the others are filled
  by an end of what comes after it.
-/
theorem fills_cons
    {run next text : List Char}
    {runs : List (List Char)} :
    Fills (run :: next :: runs) text ↔
      ∃ rest after, text = run ++ rest
        ∧ after <:+ rest ∧ Fills (next :: runs) after := by
  constructor
  · rintro ⟨_, _, fillers, hRuns, hLength, rfl⟩
    cases hRuns
    cases fillers with
    | nil =>
        cases hLength
    | cons filler fillers =>
        have hFillers : fillers.length = runs.length :=
          Nat.succ.inj hLength
        refine ⟨_, _, rfl, ?_,
          ⟨next, runs, fillers, rfl, hFillers, rfl⟩⟩
        rw [List.zipWith_cons_cons, List.flatten_cons,
          List.append_assoc]
        exact List.suffix_append filler _
  · rintro ⟨_, after, rfl, ⟨filler, rfl⟩, hAfter⟩
    rcases hAfter with ⟨_, _, fillers, hRuns, hLength, rfl⟩
    cases hRuns
    refine ⟨run, next :: runs, filler :: fillers, rfl, ?_, ?_⟩
    · rw [List.length_cons, hLength, List.length_cons]
    · simp

/- Stars fill their own places. -/
theorem fills_intercalate
    {runs : List (List Char)}
    (hSome : runs ≠ []) :
    Fills runs (['*'].intercalate runs) := by
  induction runs with
  | nil =>
      exact absurd rfl hSome
  | cons run runs ih =>
      cases runs with
      | nil =>
          rw [List.intercalate_singleton]
          exact fills_singleton.mpr rfl
      | cons next runs =>
          rw [List.intercalate_cons_cons, List.append_assoc]
          exact fills_cons.mpr
            ⟨_, _, rfl, List.suffix_append ['*'] _,
              ih (List.cons_ne_nil next runs)⟩

end Glob

end HierPath

------------------------------------------------------------
-- Matching Runs From The Left
------------------------------------------------------------

namespace HierPath

namespace Glob

/- A run is dropped from a text that starts with it. -/
private theorem dropRun?_eq_some_iff
    {run text after : List Char} :
    dropRun? run text = some after ↔ text = run ++ after := by
  unfold dropRun?
  constructor
  · intro hDrop
    split at hDrop
    next hPrefix =>
      rcases List.isPrefixOf_iff_prefix.mp hPrefix with
        ⟨rest, rfl⟩
      rw [List.drop_left] at hDrop
      cases hDrop
      rfl
    next =>
      cases hDrop
  · rintro rfl
    have hPrefix : run.isPrefixOf (run ++ after) = true :=
      List.isPrefixOf_iff_prefix.mpr
        (List.prefix_append run after)
    rw [if_pos hPrefix, List.drop_left]

/- What is dropped through ends with the run. -/
private theorem suffix_of_dropThrough?
    {run text after : List Char}
    (hDrop : dropThrough? run text = some after) :
    run ++ after <:+ text := by
  induction text with
  | nil =>
      exact ⟨[], (dropRun?_eq_some_iff.mp hDrop).symm⟩
  | cons c rest ih =>
      rw [dropThrough?] at hDrop
      cases hHere : dropRun? run (c :: rest) with
      | some here =>
          rw [hHere] at hDrop
          cases hDrop
          exact ⟨[], (dropRun?_eq_some_iff.mp hHere).symm⟩
      | none =>
          rw [hHere] at hDrop
          exact (ih hDrop).trans (List.suffix_cons c rest)

/-
  Where a run occurs in a text, it is dropped through at an
  occurrence that leaves at least as much.
-/
private theorem exists_dropThrough?_of_suffix
    {run text after : List Char}
    (hOccurs : run ++ after <:+ text) :
    ∃ more, dropThrough? run text = some more
      ∧ after <:+ more := by
  induction text with
  | nil =>
      have hNone : [] = run ++ after :=
        (List.suffix_nil.mp hOccurs).symm
      exact ⟨after, dropRun?_eq_some_iff.mpr hNone,
        List.suffix_refl after⟩
  | cons c rest ih =>
      rw [dropThrough?]
      cases hHere : dropRun? run (c :: rest) with
      | some more =>
          -- The first occurrence is at the front, and any
          -- other one leaves an end of what this leaves.
          have hText : c :: rest = run ++ more :=
            dropRun?_eq_some_iff.mp hHere
          rw [hText] at hOccurs
          refine ⟨more, rfl, ?_⟩
          apply List.suffix_of_suffix_length_le
            ((List.suffix_append run after).trans hOccurs)
            (List.suffix_append run more)
          have hLength := hOccurs.length_le
          simp only [List.length_append] at hLength
          omega
      | none =>
          apply ih
          rcases List.suffix_cons_iff.mp hOccurs with
            hFront | hLater
          · rw [dropRun?_eq_some_iff.mpr hFront.symm] at hHere
            cases hHere
          · exact hLater

/- An inner run behind a star is dropped through. -/
private theorem acceptsAfterStar_cons
    (run next : List Char)
    (runs : List (List Char))
    (text : List Char) :
    acceptsAfterStar (run :: next :: runs) text =
      match dropThrough? run text with
      | some after => acceptsAfterStar (next :: runs) after
      | none => false :=
  rfl

/- Behind a star, some end of the text fills the runs. -/
private theorem acceptsAfterStar_iff
    {run : List Char}
    {runs : List (List Char)}
    {text : List Char} :
    acceptsAfterStar (run :: runs) text = true ↔
      ∃ after, after <:+ text ∧ Fills (run :: runs) after := by
  induction runs generalizing run text with
  | nil =>
      simp only [acceptsAfterStar, fills_singleton,
        exists_eq_right]
      exact List.isSuffixOf_iff_suffix
  | cons next runs ih =>
      simp only [fills_cons]
      constructor
      · intro hAccepts
        rw [acceptsAfterStar_cons] at hAccepts
        cases hDrop : dropThrough? run text with
        | none =>
            rw [hDrop] at hAccepts
            cases hAccepts
        | some rest =>
            rw [hDrop] at hAccepts
            rcases ih.mp hAccepts with ⟨after, hEnd, hFills⟩
            exact ⟨run ++ rest, suffix_of_dropThrough? hDrop,
              rest, after, rfl, hEnd, hFills⟩
      · rintro ⟨_, hText, rest, after, rfl, hEnd, hFills⟩
        rcases exists_dropThrough?_of_suffix hText with
          ⟨more, hDrop, hRest⟩
        rw [acceptsAfterStar_cons, hDrop]
        exact ih.mpr ⟨after, hEnd.trans hRest, hFills⟩

/- A glob accepts exactly the texts that fill its runs. -/
theorem accepts_iff_fills
    (wildcard : Glob)
    (text : String) :
    wildcard.accepts text = true ↔
      Fills wildcard.runs text.toList := by
  rcases wildcard with ⟨runs⟩
  match runs with
  | [] =>
      simp [accepts, Fills]
  | [run] =>
      rw [fills_singleton]
      simp [accepts, eq_comm]
  | run :: next :: runs =>
      rw [fills_cons]
      constructor
      · intro hAccepts
        rw [accepts] at hAccepts
        cases hDrop : dropRun? run text.toList with
        | none =>
            simp [hDrop] at hAccepts
        | some rest =>
            simp only [hDrop] at hAccepts
            rcases acceptsAfterStar_iff.mp hAccepts with
              ⟨after, hEnd, hFills⟩
            exact ⟨rest, after,
              dropRun?_eq_some_iff.mp hDrop, hEnd, hFills⟩
      · rintro ⟨rest, after, hText, hEnd, hFills⟩
        have hDrop := dropRun?_eq_some_iff.mpr hText
        simp only [accepts, hDrop]
        exact acceptsAfterStar_iff.mpr ⟨after, hEnd, hFills⟩

end Glob

end HierPath

------------------------------------------------------------
-- Written Expressions
------------------------------------------------------------

namespace HierPath

namespace Expression

/-
  The texts that the rest of an expression stands for. A
  character with a meaning in expressions stands for itself
  where it is marked, and any other character where it is
  not. A lazy dot-star stands for any run of characters,
  line feeds included, and the end sign for the very end of
  the text.
-/
inductive Reads : List Char → List Char → Prop where
  | finish :
      Reads ['$'] []
  | marked
      {c : Char}
      {rest text : List Char}
      (hMeaning : c ∈ Glob.metacharacters)
      (hRest : Reads rest text) :
      Reads ('\\' :: c :: rest) (c :: text)
  | plain
      {c : Char}
      {rest text : List Char}
      (hPlain : c ∉ Glob.metacharacters)
      (hRest : Reads rest text) :
      Reads (c :: rest) (c :: text)
  | anything
      {rest text : List Char}
      (run : List Char)
      (hRest : Reads rest text) :
      Reads ('.' :: '*' :: '?' :: rest) (run ++ text)

/-
  The expression matches the whole text: it starts with the
  flag for line feeds and the sign for the start.
-/
def Matches
    (expression text : String) : Prop :=
  ∃ rest,
    expression.toList = "(?s)^".toList ++ rest
      ∧ Reads rest text.toList

/- The end sign stands for the end of the text. -/
private theorem reads_end_iff
    {text : List Char} :
    Reads ['$'] text ↔ text = [] := by
  constructor
  · intro hReads
    cases hReads with
    | finish => rfl
    | plain hPlain _ =>
        exact absurd (by decide) hPlain
  · rintro rfl
    exact .finish

/- A quoted character stands for itself. -/
private theorem reads_quoteChar_iff
    {c : Char}
    {rest text : List Char} :
    Reads (Glob.quoteChar c ++ rest) text ↔
      ∃ after, text = c :: after ∧ Reads rest after := by
  unfold Glob.quoteChar
  by_cases hMeaning : c ∈ Glob.metacharacters
  · rw [if_pos hMeaning]
    constructor
    · intro hReads
      cases hReads with
      | marked _ hRest => exact ⟨_, rfl, hRest⟩
      | plain hPlain _ => exact absurd (by decide) hPlain
    · rintro ⟨after, rfl, hRest⟩
      exact .marked hMeaning hRest
  · rw [if_neg hMeaning]
    constructor
    · intro hReads
      cases hReads with
      | finish => exact absurd (by decide) hMeaning
      | marked => exact absurd (by decide) hMeaning
      | plain _ hRest => exact ⟨_, rfl, hRest⟩
      | anything => exact absurd (by decide) hMeaning
    · rintro ⟨after, rfl, hRest⟩
      exact .plain hMeaning hRest

/- A quoted run stands for itself. -/
private theorem reads_quote_iff
    {run rest text : List Char} :
    Reads (Glob.quote run ++ rest) text ↔
      ∃ after, text = run ++ after ∧ Reads rest after := by
  induction run generalizing text with
  | nil =>
      simp [Glob.quote]
  | cons c run ih =>
      have hQuote :
          Glob.quote (c :: run) ++ rest =
            Glob.quoteChar c ++ (Glob.quote run ++ rest) := by
        simp [Glob.quote]
      rw [hQuote, reads_quoteChar_iff]
      constructor
      · rintro ⟨_, rfl, hRun⟩
        rcases ih.mp hRun with ⟨after, rfl, hRest⟩
        exact ⟨after, rfl, hRest⟩
      · rintro ⟨after, rfl, hRest⟩
        exact ⟨_, rfl, ih.mpr ⟨after, rfl, hRest⟩⟩

/- A lazy dot-star leaves any end of the text. -/
private theorem reads_anything_iff
    {rest text : List Char} :
    Reads ('.' :: '*' :: '?' :: rest) text ↔
      ∃ after, after <:+ text ∧ Reads rest after := by
  constructor
  · intro hReads
    cases hReads with
    | plain hPlain _ => exact absurd (by decide) hPlain
    | anything run hRest =>
        exact ⟨_, List.suffix_append run _, hRest⟩
  · rintro ⟨after, ⟨run, rfl⟩, hRest⟩
    exact .anything run hRest

end Expression

namespace Glob

/- The expression of a glob stands for what fills its runs. -/
private theorem reads_regexBody_iff
    {runs : List (List Char)}
    (hSome : runs ≠ [])
    {text : List Char} :
    Expression.Reads (regexBody ⟨runs⟩ ++ ['$']) text ↔
      Fills runs text := by
  unfold regexBody
  induction runs generalizing text with
  | nil =>
      exact absurd rfl hSome
  | cons run runs ih =>
      cases runs with
      | nil =>
          simp only [List.map_cons, List.map_nil,
            List.intercalate_singleton, fills_singleton,
            Expression.reads_quote_iff,
            Expression.reads_end_iff, exists_eq_right,
            List.append_nil]
      | cons next runs =>
          have hRest := @ih (List.cons_ne_nil next runs)
          simp only [List.map_cons] at hRest
          simp only [List.map_cons,
            List.intercalate_cons_cons, List.append_assoc,
            Expression.reads_quote_iff, List.cons_append,
            List.nil_append, Expression.reads_anything_iff,
            hRest, fills_cons, exists_and_left]

/- An expression has its body between flag and end sign. -/
theorem toList_regex
    (wildcard : Glob) :
    wildcard.regex.toList =
      "(?s)^".toList ++ wildcard.regexBody ++ ['$'] := by
  simp [regex]

/- The expression of a glob matches what fills its runs. -/
theorem matches_regex_iff_fills
    {wildcard : Glob}
    (hSome : wildcard.runs ≠ [])
    (text : String) :
    Expression.Matches wildcard.regex text ↔
      Fills wildcard.runs text.toList := by
  rw [← reads_regexBody_iff hSome, Expression.Matches,
    toList_regex, List.append_assoc]
  simp

end Glob

end HierPath

------------------------------------------------------------
-- Segments
------------------------------------------------------------

namespace HierPath

namespace Step

/- A segment with stars becomes the glob of its runs. -/
private theorem eq_glob_of_ofSegment
    {segment : String}
    {step : Step}
    (hStep : ofSegment segment = .ok step)
    (hSingle : segment ≠ "**")
    (hStar : '*' ∈ segment.toList) :
    step = .glob (.ofSegment segment) := by
  rcases ofSegment_cases hStep with
    ⟨hRecursive, _⟩ | ⟨_, _, hGlob⟩ | ⟨hStarless, _⟩
  · exact absurd hRecursive hSingle
  · exact hGlob
  · exact absurd hStar hStarless

/-
  A segment is refused when it has stars and takes too much
  room, and the refusal names the segment.
-/
theorem ofSegment_eq_error_iff
    {segment : String}
    {e : PathError} :
    ofSegment segment = .error e ↔
      e = .oversizedGlob segment
        ∧ '*' ∈ segment.toList
        ∧ Glob.sizeLimit <
          Glob.frameSize
            + Glob.starSize * segment.toList.count '*'
            + Glob.stateSize * Glob.encodedLength
              (segment.toList.filter (· ≠ '*')) := by
  rw [← Glob.size_ofSegment]
  by_cases hRecursive : segment = "**"
  · -- Two stars are far from the limit.
    have hSmall : ¬ Glob.sizeLimit <
        (Glob.ofSegment "**").size := by
      decide
    subst hRecursive
    simp [ofSegment, hSmall]
  · rw [ofSegment, if_neg hRecursive]
    by_cases hStar : '*' ∈ segment.toList
    · rw [if_pos hStar]
      by_cases hSize :
          (Glob.ofSegment segment).size ≤ Glob.sizeLimit
      · simp [hSize, Nat.not_lt.mpr hSize]
      · simp [hSize, hStar, Nat.not_le.mp hSize, eq_comm]
    · simp [hStar]

/- A glob of stars alone has at most 10,443 of them. -/
example :
    Glob.frameSize + Glob.starSize * 10443 ≤ Glob.sizeLimit
      ∧ Glob.sizeLimit <
        Glob.frameSize + Glob.starSize * 10444 := by
  decide

/- A segment that stands for one level accepts itself. -/
theorem accepts_self
    {segment : String}
    {step : Step}
    (hStep : ofSegment segment = .ok step)
    (hSingle : segment ≠ "**") :
    step.accepts segment = true := by
  by_cases hStar : '*' ∈ segment.toList
  · rw [eq_glob_of_ofSegment hStep hSingle hStar]
    apply (Glob.accepts_iff_fills _ _).mpr
    have hFills := Glob.fills_intercalate
      (Glob.runsOf_ne_nil segment.toList)
    rw [(Glob.cutsAtStars_runsOf _).joined] at hFills
    exact hFills
  · cases hStep.symm.trans (ofSegment_of_not_mem hStar)
    simp [accepts]

/-
  What a segment accepts as one level. `**` accepts nothing.
  A segment without a star accepts itself alone. Any other
  segment accepts what fills the runs around its stars, and
  so does the expression that it is written as.
-/
theorem segment_language
    {segment : String}
    {step : Step}
    (hStep : ofSegment segment = .ok step) :
    (segment = "**" →
      step = .recursive
        ∧ ∀ text, step.accepts text = false)
      ∧ (segment ≠ "**" → '*' ∈ segment.toList →
        ∃ wildcard, step = .glob wildcard
          ∧ Glob.CutsAtStars segment.toList wildcard.runs
          ∧ (∀ text, step.accepts text = true ↔
            Glob.Fills wildcard.runs text.toList)
          ∧ (∀ text, step.accepts text = true ↔
            Expression.Matches wildcard.regex text))
      ∧ ('*' ∉ segment.toList →
        ∀ text, step.accepts text = true ↔
          text = segment) := by
  refine ⟨?_, ?_, ?_⟩
  · rintro rfl
    cases hStep
    exact ⟨rfl, fun _ => rfl⟩
  · intro hSingle hStar
    have hGlob := eq_glob_of_ofSegment hStep hSingle hStar
    subst hGlob
    have hAccepts (text : String) :=
      Glob.accepts_iff_fills (.ofSegment segment) text
    refine ⟨_, rfl, Glob.cutsAtStars_runsOf _, hAccepts, ?_⟩
    intro text
    have hSome : (Glob.ofSegment segment).runs ≠ [] :=
      Glob.runsOf_ne_nil segment.toList
    exact (hAccepts text).trans
      (Glob.matches_regex_iff_fills hSome text).symm
  · intro hStarless text
    cases hStep.symm.trans (ofSegment_of_not_mem hStarless)
    simp [accepts, eq_comm]

/-
  Stars side by side leave an empty run between them, a dot
  stands for itself, and a filler may hold line feeds,
  separators and stars.
-/
theorem segment_language_of_adjacent_stars :
    ∃ step wildcard,
      ofSegment "a**.c*" = .ok step
        ∧ step = .glob wildcard
        ∧ wildcard.runs = [['a'], [], ['.', 'c'], []]
        ∧ step.accepts "a\n/*.c" = true
        ∧ Expression.Matches wildcard.regex "a\n/*.c"
        ∧ step.accepts "axc" = false
        ∧ ¬ Expression.Matches wildcard.regex "axc" := by
  have hStep :
      ofSegment "a**.c*" =
        .ok (.glob ⟨[['a'], [], ['.', 'c'], []]⟩) := by
    decide +kernel
  rcases (segment_language hStep).2.1 (by decide)
      (by decide) with
    ⟨wildcard, hGlob, _, hFills, hMatches⟩
  cases hGlob
  have hAccepts :
      accepts (.glob ⟨[['a'], [], ['.', 'c'], []]⟩)
        "a\n/*.c" = true :=
    (hFills _).mpr
      ⟨['a'], [[], ['.', 'c'], []],
        [['\n'], ['/', '*'], []], rfl, rfl, by decide⟩
  have hRefuses :
      accepts (.glob ⟨[['a'], [], ['.', 'c'], []]⟩)
        "axc" = false := by
    decide +kernel
  refine ⟨_, _, hStep, rfl, rfl, hAccepts,
    (hMatches _).mp hAccepts, hRefuses, ?_⟩
  rw [← hMatches, hRefuses]
  exact Bool.false_ne_true

end Step

end HierPath
