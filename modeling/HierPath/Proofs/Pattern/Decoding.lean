import HierPath.Proofs.Path.Constructible
import HierPath.Proofs.Pattern.Wildcards

/-
  What a compiled pattern tells about its path.

  The expression of a glob is made of parts: a character
  that stands for itself, quoted where it has a meaning, and
  a wildcard. No part can be taken for another one or for
  the front of another one, whatever comes after it. So the
  expression is read back in one way only, to the characters
  and stars of the segment.

  The kind of a step and its text therefore tell the segment
  that it stands for, and the steps of a pattern tell all
  segments of its path. The spelling of the path compiles to
  the same pattern again.

  Key definitions include:
    * `Expression.Part`
    * `Expression.Part.spelling`
    * `Expression.DecodesTo`
    * `Expression.decode`
    * `Step.Form`
    * `Step.form`

  Key theorems include:
    * `Expression.decode_flatMap_spelling`
    * `Glob.regexBody_ofSegment`
    * `Glob.regex_ofSegment_injective`
    * `Step.segment_eq_of_form_eq`
    * `Pattern.compilation_is_faithful`
-/

------------------------------------------------------------
-- Parts Of Expressions
------------------------------------------------------------

namespace HierPath

namespace Expression

/-
  A part of the expression of a glob: a character that
  stands for itself, or a wildcard.
-/
inductive Part where
  | plain (c : Char)
  | wildcard
deriving DecidableEq

namespace Part

/- What a character of a segment becomes: a star is wild. -/
def ofChar
    (c : Char) : Part :=
  if c = '*' then .wildcard else .plain c

/- The character of a segment that a part stands for. -/
def char : Part → Char
  | .plain c => c
  | .wildcard => '*'

/- How a part is written. -/
def spelling : Part → List Char
  | .plain c => Glob.quoteChar c
  | .wildcard => ['.', '*', '?']

end Part

/- The parts are written in the text one after another. -/
def DecodesTo
    (body : List Char)
    (parts : List Part) : Prop :=
  parts.flatMap Part.spelling = body

/-
  Read parts from the front of a text. A mark quotes the
  next character, and a lazy dot-star is a wildcard.
-/
def decode : List Char → List Part
  | [] => []
  | '\\' :: c :: rest => .plain c :: decode rest
  | '.' :: '*' :: '?' :: rest => .wildcard :: decode rest
  | c :: rest => .plain c :: decode rest

end Expression

end HierPath

------------------------------------------------------------
-- Decoding
------------------------------------------------------------

namespace HierPath

namespace Expression

namespace Part

/- A character comes back from what it becomes. -/
@[simp] theorem char_ofChar
    (c : Char) :
    (ofChar c).char = c := by
  unfold ofChar
  split
  next hStar => exact hStar.symm
  next => rfl

/- A star never becomes a character that stands for itself. -/
theorem ne_star_of_ofChar
    {written c : Char}
    (hPlain : ofChar written = .plain c) :
    c ≠ '*' := by
  unfold ofChar at hPlain
  split at hPlain
  next =>
    cases hPlain
  next hOther =>
    cases hPlain
    exact hOther

end Part

/- A character that needs no quoting stands for itself. -/
private theorem decode_of_not_mem
    {c : Char}
    (hPlain : c ∉ Glob.metacharacters)
    (rest : List Char) :
    decode (c :: rest) = .plain c :: decode rest := by
  rw [decode]
  · rintro _ _ rfl
    exact absurd (by decide) hPlain
  · rintro _ rfl
    exact absurd (by decide) hPlain

/- A part is read from the front, whatever comes after it. -/
theorem decode_spelling_append
    (part : Part)
    (rest : List Char) :
    decode (part.spelling ++ rest) = part :: decode rest := by
  cases part with
  | wildcard =>
      rfl
  | plain c =>
      rw [Part.spelling, Glob.quoteChar]
      split
      next => rfl
      next hPlain => exact decode_of_not_mem hPlain rest

/- Written parts are read back. -/
theorem decode_flatMap_spelling
    (parts : List Part) :
    decode (parts.flatMap Part.spelling) = parts := by
  induction parts with
  | nil =>
      rfl
  | cons part rest ih =>
      rw [List.flatMap_cons, decode_spelling_append, ih]

/- A text is made of parts in one way at most. -/
theorem DecodesTo.unique
    {body : List Char}
    {parts others : List Part}
    (hParts : DecodesTo body parts)
    (hOthers : DecodesTo body others) :
    others = parts := by
  have hSame := congrArg decode (hOthers.trans hParts.symm)
  rwa [decode_flatMap_spelling, decode_flatMap_spelling]
    at hSame

end Expression

end HierPath

------------------------------------------------------------
-- Expressions Of Segments
------------------------------------------------------------

namespace HierPath

namespace Glob

/- A run without stars is quoted character by character. -/
private theorem flatMap_spelling_of_not_mem
    {run : List Char}
    (hStarless : '*' ∉ run) :
    (run.map Expression.Part.ofChar).flatMap
        Expression.Part.spelling =
      quote run := by
  rw [List.flatMap_map]
  apply List.flatMap_congr
  intro c hChar
  have hPlain : c ≠ '*' := by
    rintro rfl
    exact hStarless hChar
  simp [Expression.Part.ofChar, hPlain,
    Expression.Part.spelling]

/- The expression of runs has a wildcard for each star. -/
private theorem regexBody_eq
    {runs : List (List Char)}
    (hStarless : ∀ run ∈ runs, '*' ∉ run) :
    regexBody ⟨runs⟩ =
      ((['*'].intercalate runs).map
        Expression.Part.ofChar).flatMap
          Expression.Part.spelling := by
  unfold regexBody
  induction runs with
  | nil =>
      rfl
  | cons run rest ih =>
      simp only [List.mem_cons, forall_eq_or_imp]
        at hStarless
      have hRun := flatMap_spelling_of_not_mem hStarless.1
      cases rest with
      | nil =>
          simp [hRun]
      | cons next rest =>
          have hRest := ih hStarless.2
          simp only [List.map_cons] at hRest
          simp [List.intercalate_cons_cons, hRun, hRest,
            Expression.Part.ofChar,
            Expression.Part.spelling]

/- A segment is written character by character. -/
theorem regexBody_ofSegment
    (segment : String) :
    (ofSegment segment).regexBody =
      (segment.toList.map Expression.Part.ofChar).flatMap
        Expression.Part.spelling := by
  have hRuns := cutsAtStars_runsOf segment.toList
  rw [ofSegment, regexBody_eq hRuns.starless, hRuns.joined]

/- Segments that are written alike are the same. -/
theorem regex_ofSegment_injective :
    Function.Injective fun segment =>
      (ofSegment segment).regex := by
  intro segment other hSame
  have hBodies :
      (ofSegment segment).regexBody =
        (ofSegment other).regexBody := by
    have hLists := congrArg String.toList hSame
    rw [toList_regex, toList_regex] at hLists
    exact List.append_cancel_left
      (List.append_cancel_right hLists)
  rw [regexBody_ofSegment, regexBody_ofSegment] at hBodies
  have hParts := congrArg Expression.decode hBodies
  rw [Expression.decode_flatMap_spelling,
    Expression.decode_flatMap_spelling] at hParts
  have hChars :=
    congrArg (List.map Expression.Part.char) hParts
  rw [← String.toList_inj]
  simpa [Function.comp_def] using hChars

end Glob

end HierPath

------------------------------------------------------------
-- Forms Of Steps
------------------------------------------------------------

namespace HierPath

namespace Step

/- How a step shows: its kind, and the text it has. -/
inductive Form where
  | recursive
  | glob (expression : String)
  | literal (name : String)
deriving DecidableEq

/- A glob shows as its expression. -/
def form : Step → Form
  | .recursive => .recursive
  | .glob wildcard => .glob wildcard.regex
  | .literal name => .literal name

/- Steps that show alike stand for the same segment. -/
theorem segment_eq_of_form_eq
    {segment other : String}
    {step twin : Step}
    (hStep : ofSegment segment = .ok step)
    (hTwin : ofSegment other = .ok twin)
    (hForm : step.form = twin.form) :
    segment = other := by
  rcases ofSegment_cases hStep with
    ⟨rfl, rfl⟩ | ⟨_, _, rfl⟩ | ⟨_, rfl⟩
  · rcases ofSegment_cases hTwin with
      ⟨rfl, _⟩ | ⟨_, _, rfl⟩ | ⟨_, rfl⟩
    · rfl
    · cases hForm
    · cases hForm
  · rcases ofSegment_cases hTwin with
      ⟨_, rfl⟩ | ⟨_, _, rfl⟩ | ⟨_, rfl⟩
    · cases hForm
    · exact Glob.regex_ofSegment_injective
        (Form.glob.inj hForm)
    · cases hForm
  · rcases ofSegment_cases hTwin with
      ⟨_, rfl⟩ | ⟨_, _, rfl⟩ | ⟨_, rfl⟩
    · cases hForm
    · cases hForm
    · exact Form.literal.inj hForm

end Step

end HierPath

------------------------------------------------------------
-- Compiled Patterns
------------------------------------------------------------

namespace HierPath

namespace Pattern

/- Steps that show alike stand for the same segments. -/
private theorem names_eq_of_forms_eq
    {names others : List String}
    {steps twins : List Step}
    (hSteps : StepsOf names steps)
    (hTwins : StepsOf others twins)
    (hForms : steps.map Step.form = twins.map Step.form) :
    names = others := by
  induction hSteps generalizing others twins with
  | nil =>
      cases hTwins with
      | nil => rfl
      | cons _ _ => cases hForms
  | cons hName _ ih =>
      cases hTwins with
      | nil => cases hForms
      | cons hOther hRest =>
          rw [List.map_cons, List.map_cons,
            List.cons.injEq] at hForms
          rw [Step.segment_eq_of_form_eq hName hOther
            hForms.1, ih hRest hForms.2]

/- The segments of a path are told by its compiled steps. -/
theorem segments_eq_of_forms_eq
    {p q : Path}
    {pattern other : Pattern}
    (hPattern : compile p = .ok pattern)
    (hOther : compile q = .ok other)
    (hForms :
      pattern.steps.map Step.form =
        other.steps.map Step.form) :
    p.segments = q.segments :=
  names_eq_of_forms_eq (steps_of_compile hPattern)
    (steps_of_compile hOther) hForms

/- A pattern that has been read is read from its text. -/
theorem parse_text_of_parse
    {raw : String}
    {pattern : Pattern}
    (hParse : parse raw = .ok pattern) :
    parse pattern.text = .ok pattern := by
  unfold parse at hParse ⊢
  cases hRead : Path.parse raw with
  | error cause =>
      rw [hRead] at hParse
      cases hParse
  | ok source =>
      rw [hRead] at hParse
      have hCompile : compile source = .ok pattern := hParse
      have hNamed : source.Named :=
        Path.named_of_parseIn (by simp) hRead
      have hAgain : Path.parse source.text = .ok source :=
        Path.parseIn_text hNamed (Or.inr rfl)
      rw [text, (of_compile hCompile).1, hAgain]
      exact hCompile

/-
  Nothing is lost in a compilation. The expression of any
  segment is made of parts in one way, and their characters
  are those of the segment, with its stars as wildcards. So
  segments have different expressions, and compiled steps
  that show alike come from the same segments. A pattern
  that has been read comes back from its text and from the
  datum that it is stored as.
-/
theorem compilation_is_faithful :
    (∀ segment : String, ∃ body parts,
      (Glob.ofSegment segment).regex.toList =
          "(?s)^".toList ++ body ++ ['$']
        ∧ (∀ others, Expression.DecodesTo body others ↔
          others = parts)
        ∧ parts.map Expression.Part.char = segment.toList
        ∧ ∀ c, .plain c ∈ parts → c ≠ '*')
      ∧ Function.Injective
        (fun segment => (Glob.ofSegment segment).regex)
      ∧ (∀ p q pattern other,
        compile p = .ok pattern →
          compile q = .ok other →
            pattern.steps.map Step.form =
              other.steps.map Step.form →
            p.segments = q.segments)
      ∧ (∀ raw pattern, parse raw = .ok pattern →
        parse pattern.text = .ok pattern
          ∧ ofDatum pattern.toDatum = .ok pattern) := by
  refine ⟨?_, Glob.regex_ofSegment_injective, ?_, ?_⟩
  · intro segment
    have hOwn :
        Expression.DecodesTo
          (Glob.ofSegment segment).regexBody
          (segment.toList.map Expression.Part.ofChar) :=
      (Glob.regexBody_ofSegment segment).symm
    refine ⟨_, segment.toList.map Expression.Part.ofChar,
      Glob.toList_regex _, fun others => ?_, ?_, ?_⟩
    · constructor
      · exact hOwn.unique
      · rintro rfl
        exact hOwn
    · simp [Function.comp_def]
    · intro c hPart
      rcases List.mem_map.mp hPart with ⟨_, _, hChar⟩
      exact Expression.Part.ne_star_of_ofChar hChar
  · intro p q pattern other hPattern hOther hForms
    exact segments_eq_of_forms_eq hPattern hOther hForms
  · intro raw pattern hParse
    have hAgain := parse_text_of_parse hParse
    exact ⟨hAgain, Datum.readText_text.mpr hAgain⟩

/-
  A segment may look like the expression of a star and hold
  escape marks. Its expression quotes them, and the pattern
  comes back from its text.
-/
theorem compilation_is_faithful_of_lookalike :
    ∃ pattern,
      parse "/x/../.*?\\\\*/**" = .ok pattern
        ∧ pattern.steps.map Step.form =
          [.glob "(?s)^\\..*?\\?\\\\.*?$", .recursive]
        ∧ pattern.text = "/.*?\\\\*/**"
        ∧ parse pattern.text = .ok pattern
        ∧ ofDatum pattern.toDatum = .ok pattern := by
  have hParse :
      parse "/x/../.*?\\\\*/**" =
        .ok ⟨⟨.absolute, [".*?\\*", "**"]⟩,
          [.glob ⟨[['.'], ['?', '\\'], []]⟩, .recursive],
          #[1, 0, 0]⟩ := by
    decide +kernel
  exact ⟨_, hParse, by decide +kernel, by decide +kernel,
    compilation_is_faithful.2.2.2 _ _ hParse⟩

end Pattern

end HierPath
