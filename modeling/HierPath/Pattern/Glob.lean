/-
  Wildcards within one segment. A star stands for any run
  of characters, and everything else for itself.

  A glob is kept as the runs of plain characters around its
  stars. It can also be written as a regular expression
  that accepts the same texts.

  The expression is compiled to an automaton that reads the
  bytes of a text from the last to the first. The size of a
  glob is the room in bytes of the automaton's states and of
  the ways out of them, and it has a limit.

  Matching takes each inner run at its first occurrence:
  an earlier end of a run leaves more text for the runs
  after it, so no other choice can do better. The last run
  has to end the text.

  Key definitions include:
    * `Glob`
    * `Glob.ofSegment`
    * `Glob.regex`
    * `Glob.size`
    * `Glob.sizeLimit`
    * `Glob.dropThrough?`
    * `Glob.accepts`
-/

------------------------------------------------------------
-- Globs
------------------------------------------------------------

namespace HierPath

/-
  The runs of plain characters of a segment, one more than
  the segment has stars.
-/
structure Glob where
  runs : List (List Char)
deriving DecidableEq

namespace Glob

/- Put one character in front of the runs of a text. -/
def putRun
    (c : Char)
    (runs : List (List Char)) : List (List Char) :=
  if c = '*' then
    [] :: runs
  else
    match runs with
    | [] => [[c]]
    | run :: rest => (c :: run) :: rest

/- The plain runs of a text around its stars. -/
def runsOf
    (chars : List Char) : List (List Char) :=
  chars.foldr putRun [[]]

/- The glob that a segment is read as. -/
def ofSegment
    (segment : String) : Glob :=
  ⟨runsOf segment.toList⟩

end Glob

end HierPath

------------------------------------------------------------
-- Regular Expressions
------------------------------------------------------------

namespace HierPath

namespace Glob

/- The characters with a meaning in regular expressions. -/
def metacharacters : List Char :=
  ['\\', '.', '+', '*', '?', '(', ')', '|', '[', ']',
    '\x7b', '\x7d', '^', '$', '#', '&', '-', '~']

/- A character that stands for itself in an expression. -/
def quoteChar
    (c : Char) : List Char :=
  if c ∈ metacharacters then ['\\', c] else [c]

/- A run that stands for itself in an expression. -/
def quote
    (run : List Char) : List Char :=
  run.flatMap quoteChar

/-
  The expression between its anchors: any number of any
  characters between two runs.
-/
def regexBody
    (glob : Glob) : List Char :=
  ['.', '*', '?'].intercalate (glob.runs.map quote)

/-
  The whole expression. Its flag lets a dot stand for a
  line feed as well.
-/
def regex
    (glob : Glob) : String :=
  "(?s)^" ++ String.ofList glob.regexBody ++ "$"

end Glob

end HierPath

------------------------------------------------------------
-- Compiled Size
------------------------------------------------------------

namespace HierPath

namespace Glob

/- The room of a state. -/
def stateSize : Nat :=
  32

/- The room of a way out of a state that has several. -/
def choiceSize : Nat :=
  4

/-
  How many bytes a character is encoded in, for each of the
  nine ranges that characters fall into by the bytes of
  their encodings.
-/
def encodedLengths : List Nat :=
  [1, 2, 3, 3, 3, 3, 4, 4, 4]

/-
  The room of a star. One state takes one more character or
  none, one chooses the range of the character, each byte of
  each range has its own, and the ranges end in a common one.
-/
def starSize : Nat :=
  let bytes := encodedLengths.foldr (· + ·) 0
  let choices := 2 + encodedLengths.length
  stateSize * (bytes + 3) + choiceSize * choices

/-
  The room of every glob, for the states of its entry, its
  two anchors and its end.
-/
def frameSize : Nat :=
  4 * stateSize

/- How many bytes a run is encoded in. -/
def encodedLength
    (run : List Char) : Nat :=
  run.foldr (fun c length => c.utf8Size + length) 0

/-
  The room of the frame and the stars, and of a state for
  each byte of a plain character.
-/
def size
    (glob : Glob) : Nat :=
  let stars := glob.runs.length - 1
  frameSize + starSize * stars
    + stateSize * encodedLength glob.runs.flatten

/- The largest size that a glob may have. -/
def sizeLimit : Nat :=
  10485760

end Glob

end HierPath

------------------------------------------------------------
-- Matching
------------------------------------------------------------

namespace HierPath

namespace Glob

/- What follows a run at the start of a text. -/
def dropRun?
    (run : List Char)
    (text : List Char) : Option (List Char) :=
  if run.isPrefixOf text then
    some (text.drop run.length)
  else
    none

/- What follows the first occurrence of a run in a text. -/
def dropThrough?
    (run : List Char) : List Char → Option (List Char)
  | [] => dropRun? run []
  | c :: rest =>
      match dropRun? run (c :: rest) with
      | some after => some after
      | none => dropThrough? run rest

/-
  A star stands in front of every run of the list, and the
  last run ends the text.
-/
def acceptsAfterStar : List (List Char) → List Char → Bool
  | [], text => text.isEmpty
  | [run], text => run.isSuffixOf text
  | run :: runs, text =>
      match dropThrough? run text with
      | some after => acceptsAfterStar runs after
      | none => false

/- The glob matches the whole text. -/
def accepts
    (glob : Glob)
    (text : String) : Bool :=
  match glob.runs with
  | [] => false
  | [run] => run = text.toList
  | run :: runs =>
      match dropRun? run text.toList with
      | some after => acceptsAfterStar runs after
      | none => false

end Glob

end HierPath
