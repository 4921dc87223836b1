/-
  Hierarchical paths: an anchor and the list of segment
  names below it.

  A segment name is any text but the empty text, `.` and
  `..`; it may hold separators and escape marks. Written
  out, a separator or escape mark inside a name is escaped,
  an absolute path starts with the separator and a relative
  one with `.`, so every path has one spelling.

  Paths are ordered by anchor, absolute first, and then by
  their segments from the top. This is not the order of
  the spellings.

  Key definitions include:
    * `Anchor`
    * `Path`
    * `Path.below`
    * `Path.parent?`
    * `Path.join`
    * `Path.startsWith`
    * `Path.relativeTo?`
    * `Segment.isName`
    * `Segment.spelling`
    * `Path.spelling`
    * `Path.text`
-/

------------------------------------------------------------
-- Anchors And Paths
------------------------------------------------------------

namespace HierPath

/-
  Where a path starts: at the root of everything, or at a
  place that is left open.
-/
inductive Anchor where
  | absolute
  | relative
deriving DecidableEq, Ord

/- A path is an anchor and the names below it, top first. -/
structure Path where
  anchor : Anchor
  segments : List String
deriving DecidableEq

namespace Anchor

/- The character that stands for the bare anchor. -/
def sign : Anchor → Char
  | .absolute => '/'
  | .relative => '.'

end Anchor

end HierPath

------------------------------------------------------------
-- Order
------------------------------------------------------------

namespace HierPath

namespace Path

/-
  Absolute paths come first; paths of one anchor compare
  segment by segment, so a path comes before all below it.
-/
instance : Ord Path where
  compare a b :=
    (compare a.anchor b.anchor).then
      (compare a.segments b.segments)

/- The path `a` comes no later than the path `b`. -/
def le
    (a b : Path) : Bool :=
  (compare a b).isLE

/- All paths of a list in ascending order. -/
def sort
    (paths : List Path) : List Path :=
  paths.mergeSort le

end Path

end HierPath

------------------------------------------------------------
-- Structure
------------------------------------------------------------

namespace HierPath

namespace Path

/- The root of all absolute paths. -/
def root : Path :=
  ⟨.absolute, []⟩

/- The open place that relative paths start from. -/
def relativeRoot : Path :=
  ⟨.relative, []⟩

/- The path starts at the root of everything. -/
def isAbsolute
    (p : Path) : Bool :=
  p.anchor = .absolute

/- The path starts at an open place. -/
def isRelative
    (p : Path) : Bool :=
  p.anchor = .relative

/- The path has no segments. -/
def isRoot
    (p : Path) : Bool :=
  p.segments.isEmpty

/- The number of segments. -/
def depth
    (p : Path) : Nat :=
  p.segments.length

/- The text that stands for the bare anchor of a path. -/
def sign
    (p : Path) : String :=
  String.singleton p.anchor.sign

/- The topmost segment, or the anchor's sign at a root. -/
def first
    (p : Path) : String :=
  p.segments.head?.getD p.sign

/- The deepest segment, or the anchor's sign at a root. -/
def last
    (p : Path) : String :=
  p.segments.getLast?.getD p.sign

/- The segment at a position counted from the top. -/
def segment?
    (p : Path)
    (i : Nat) : Option String :=
  p.segments[i]?

/- The path cut off after its first `n` segments. -/
def top
    (p : Path)
    (n : Nat) : Path :=
  ⟨p.anchor, p.segments.take n⟩

/- The path with one more name at its end. -/
def below
    (p : Path)
    (name : String) : Path :=
  ⟨p.anchor, p.segments ++ [name]⟩

/- The path one level up; a root has none. -/
def parent?
    (p : Path) : Option Path :=
  if p.isRoot then
    none
  else
    some (p.top (p.depth - 1))

/-
  The segments of `q` moved below `p`, whatever the anchor
  of `q` is.
-/
def join
    (p q : Path) : Path :=
  ⟨p.anchor, p.segments ++ q.segments⟩

/- The path `p` is the path `q` or lies below it. -/
def startsWith
    (p q : Path) : Bool :=
  p.anchor = q.anchor && q.segments.isPrefixOf p.segments

/- The way from `q` down to `p`, where `p` lies below `q`. -/
def relativeTo?
    (p q : Path) : Option Path :=
  if p.startsWith q then
    some ⟨.relative, p.segments.drop q.depth⟩
  else
    none

end Path

end HierPath

------------------------------------------------------------
-- Spelling
------------------------------------------------------------

namespace HierPath

namespace Segment

/- The text can be the name of a segment. -/
def isName
    (text : String) : Bool :=
  text ≠ "" && text ≠ "." && text ≠ ".."

/- The character means something in a written path. -/
def isMark
    (c : Char) : Bool :=
  c = '/' || c = '\\'

/- One character of a name, escaped where it is a mark. -/
def spellChar
    (c : Char) : List Char :=
  if isMark c then ['\\', c] else [c]

/- The characters of a name as they stand in a path. -/
def spelling
    (name : String) : List Char :=
  name.toList.flatMap spellChar

/- A name as it stands in a written path. -/
def escape
    (name : String) : String :=
  String.ofList (spelling name)

/- The name stands in a written path just as it is. -/
def isPlain
    (name : String) : Bool :=
  !name.toList.any isMark

end Segment

namespace Path

/- Names one below the other, a separator before each. -/
def spellSegments
    (names : List String) : List Char :=
  names.flatMap fun name => '/' :: Segment.spelling name

/-
  The characters of a written path. An absolute path is
  its separated names, a relative one has the sign of its
  anchor in front, and a root is its sign alone.
-/
def spelling : Path → List Char
  | ⟨anchor, []⟩ => [anchor.sign]
  | ⟨.absolute, names⟩ => spellSegments names
  | ⟨.relative, names⟩ => '.' :: spellSegments names

/- The one spelling of a path. -/
def text
    (p : Path) : String :=
  String.ofList p.spelling

instance : ToString Path where
  toString := text

end Path

end HierPath
