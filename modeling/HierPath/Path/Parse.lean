import HierPath.Path.Basic
import HierPath.Error

/-
  Reading paths from text.

  Reading has two steps. The text is first cut into pieces
  at its bare separators, and escapes are taken off. The
  pieces are then settled one after another on the names of
  a base path: an empty piece and `.` stay where they are,
  `..` climbs, and any other piece descends. A piece is
  judged after its escapes are off, so an escaped dot still
  counts as a dot.

  The names met so far are kept deepest first, so climbing
  and descending touch the head of a list only.

  Key definitions include:
    * `Pieces`
    * `Pieces.cut`
    * `Path.settle`
    * `Path.resolve`
    * `Path.parseIn`
    * `Path.parse`
    * `Path.child`
    * `Path.push`
-/

------------------------------------------------------------
-- Cutting Text Into Pieces
------------------------------------------------------------

namespace HierPath

/-
  The pieces of a written path. A closed piece has a
  separator after it; the final piece has none, and it is
  missing where the text ends inside an escape.
-/
structure Pieces where
  closed : List (List Char)
  final : Option (List Char)
deriving DecidableEq

namespace Pieces

/- Put one more character in front of the first piece. -/
def cons
    (c : Char) : Pieces → Pieces
  | ⟨[], final⟩ => ⟨[], final.map (c :: ·)⟩
  | ⟨piece :: closed, final⟩ => ⟨(c :: piece) :: closed, final⟩

/- Put one more closed piece, an empty one, in front. -/
def close
    (pieces : Pieces) : Pieces :=
  ⟨[] :: pieces.closed, pieces.final⟩

/-
  Cut text at the separators that are not escaped. An
  escape mark gives the next character its plain meaning.
-/
def cut : List Char → Pieces
  | [] => ⟨[], some []⟩
  | ['\\'] => ⟨[], none⟩
  | '\\' :: c :: rest => (cut rest).cons c
  | '/' :: rest => (cut rest).close
  | c :: rest => (cut rest).cons c

end Pieces

end HierPath

------------------------------------------------------------
-- Settling Pieces On A Base
------------------------------------------------------------

namespace HierPath

namespace Path

/-
  Settle one piece on names that are kept deepest first.
  There is no answer where the piece climbs and no name is
  left.
-/
def settle
    (names : List String)
    (piece : List Char) : Option (List String) :=
  match piece with
  | [] => some names
  | ['.'] => some names
  | ['.', '.'] =>
      match names with
      | [] => none
      | _ :: above => some above
  | _ => some (String.ofList piece :: names)

/-
  Read text from a base path on. Closed pieces are settled
  before the end of the text is looked at, so an early climb
  is reported in favour of a dangling escape.
-/
def resolve
    (raw : String)
    (base : Path)
    (chars : List Char) : Except PathError Path :=
  let pieces := Pieces.cut chars
  match pieces.closed.foldlM settle base.segments.reverse with
  | none => .error (.aboveRoot raw)
  | some names =>
      match pieces.final with
      | none => .error (.danglingEscape raw)
      | some piece =>
          match settle names piece with
          | none => .error (.aboveRoot raw)
          | some names => .ok ⟨base.anchor, names.reverse⟩

end Path

end HierPath

------------------------------------------------------------
-- Reading
------------------------------------------------------------

namespace HierPath

namespace Path

/-
  Read a path. A text with a separator in front is
  absolute; any other text goes on from the context, or
  from an open place where there is no context.
-/
def parseIn
    (context : Option Path)
    (raw : String) : Except PathError Path :=
  match raw.toList with
  | [] => .error .empty
  | '/' :: rest => resolve raw root rest
  | chars => resolve raw (context.getD relativeRoot) chars

/- Read a path that stands on its own. -/
def parse
    (raw : String) : Except PathError Path :=
  parseIn none raw

/- Read a path as seen from `p`. -/
def child
    (p : Path)
    (raw : String) : Except PathError Path :=
  parseIn (some p) raw

/- Add one name as it is, with nothing in it interpreted. -/
def push
    (p : Path)
    (name : String) : Except PathError Path :=
  if Segment.isName name then
    .ok (p.below name)
  else
    .error (.invalidSegment name)

end Path

end HierPath
