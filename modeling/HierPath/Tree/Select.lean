import HierPath.Pattern.Search
import HierPath.Tree.Basic

/-
  Selecting the entries of a tree by a pattern.

  A pattern is matched against what a key has below the
  node that is asked, as in a lookup, so its own anchor
  plays no part.

  Key definitions include:
    * `Tree.select`
-/

------------------------------------------------------------
-- Selection
------------------------------------------------------------

namespace HierPath

namespace Tree

variable {V : Type u}

/- The entries whose keys below this node match. -/
def select
    (tree : Tree V)
    (pattern : Pattern) : List (Path × V) :=
  tree.entries.filter fun entry =>
    pattern.isMatchLevels
      (entry.1.segments.drop tree.path.depth)

end Tree

end HierPath
