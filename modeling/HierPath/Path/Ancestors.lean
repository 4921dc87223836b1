import HierPath.Path.Basic

/-
  The way up from a path: the path itself, its parent, the
  parent of that, and so on to the root of its anchor.

  The climb is a value that knows how many paths are left,
  so it can be stopped, measured and taken up again.

  Key definitions include:
    * `Ancestors`
    * `Path.ancestors`
    * `Ancestors.next?`
    * `Ancestors.advance`
    * `Ancestors.toList`
-/

------------------------------------------------------------
-- Climbing
------------------------------------------------------------

namespace HierPath

/- A climb from `path` with `left` paths still to come. -/
structure Ancestors where
  path : Path
  left : Nat
deriving DecidableEq

namespace Path

/- The climb that starts at a path. -/
def ancestors
    (p : Path) : Ancestors :=
  ⟨p, p.depth + 1⟩

end Path

namespace Ancestors

/- The next path up, and the climb that is left after it. -/
def next?
    (climb : Ancestors) : Option (Path × Ancestors) :=
  match climb.left with
  | 0 => none
  | n + 1 => some (climb.path.top n, ⟨climb.path, n⟩)

/- The bounds on the number of paths left are exact. -/
def bounds
    (climb : Ancestors) : Nat × Nat :=
  (climb.left, climb.left)

/- At most `n` steps of a climb, and what is left of it. -/
def advance : Nat → Ancestors → List Path × Ancestors
  | 0, climb => ([], climb)
  | n + 1, climb =>
      match climb.next? with
      | none => ([], climb)
      | some (p, after) =>
          let (paths, final) := advance n after
          (p :: paths, final)

/- All paths that a climb has left. -/
def toList
    (climb : Ancestors) : List Path :=
  (climb.advance climb.left).1

end Ancestors

end HierPath
