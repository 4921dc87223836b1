import HierPath.Error
import HierPath.Tree.Children

/-
  Trees of values, keyed by paths.

  A tree has one node per segment. A node knows its own
  path, may hold a value, and has its children sorted by
  name. Nodes on the way to a value are made when they are
  needed and never removed.

  Keys are walked from the node that an operation is called
  on, so only the segments of a key count: a subtree takes
  keys relative to itself, and the anchor of a key plays no
  part.

  Key definitions include:
    * `Tree`
    * `Tree.ofRoot`
    * `Tree.descend?`
    * `Tree.subtree`
    * `Tree.get`
    * `Written`
    * `Tree.add`
    * `Tree.addAll`
    * `Tree.writes`
    * `Tree.graft`
    * `Tree.assign`
    * `Tree.entries`
    * `Tree.count`
    * `Tree.nodeCount`
-/

------------------------------------------------------------
-- Nodes
------------------------------------------------------------

namespace HierPath

universe u

/- A node: its path, its value if any, and its children. -/
inductive Tree (V : Type u) where
  | node
      (path : Path)
      (item : Option V)
      (children : List (String × Tree V))

namespace Tree

variable {V : Type u}

/- A tree without values whose top node has a given path. -/
def ofRoot
    (path : Path) : Tree V :=
  .node path none []

/- The tree without values at the root of all paths. -/
def empty : Tree V :=
  ofRoot .root

instance : Inhabited (Tree V) where
  default := empty

/- Where a node is. -/
def path : Tree V → Path
  | .node path _ _ => path

/- The value held at exactly this node. -/
def item : Tree V → Option V
  | .node _ item _ => item

/- The named nodes right below a node. -/
def children : Tree V → Children (Tree V)
  | .node _ _ children => children

/- The node holds a value itself. -/
def hasItem
    (tree : Tree V) : Bool :=
  tree.item.isSome

/- The child of a name. -/
def child?
    (tree : Tree V)
    (name : String) : Option (Tree V) :=
  tree.children.find? name

/- The children, in order of their names. -/
def branches
    (tree : Tree V) : List (Tree V) :=
  tree.children.map Prod.snd

end Tree

end HierPath

------------------------------------------------------------
-- Lookup
------------------------------------------------------------

namespace HierPath

namespace Tree

variable {V : Type u}

/- The node that a list of names leads to. -/
def descend? : Tree V → List String → Option (Tree V)
  | tree, [] => some tree
  | .node _ _ children, name :: rest =>
      match Children.find? name children with
      | none => none
      | some child => child.descend? rest

/- The node at a key, whether it holds a value or not. -/
def subtree
    (tree : Tree V)
    (key : Path) : Except PathError (Tree V) :=
  match tree.descend? key.segments with
  | none => .error (.notFound key)
  | some found => .ok found

/- The value held at exactly a key. -/
def get
    (tree : Tree V)
    (key : Path) : Except PathError V :=
  match (tree.descend? key.segments).bind item with
  | none => .error (.notFound key)
  | some value => .ok value

/- A value is held at exactly a key. -/
def contains
    (tree : Tree V)
    (key : Path) : Bool :=
  match tree.descend? key.segments with
  | none => false
  | some found => found.hasItem

end Tree

end HierPath

------------------------------------------------------------
-- Writing
------------------------------------------------------------

namespace HierPath

/-
  What a write has done: the tree after it, the value that
  was replaced, the number of nodes that were made, and the
  path of the node that was written.
-/
structure Written (V : Type u) where
  tree : Tree V
  previous : Option V
  created : Nat
  location : Path

namespace Tree

variable {V : Type u}

/-
  Put a value where a list of names leads to. A node that
  is missing on the way is made, and its path is that of
  the node above it with one name more.
-/
def write : Tree V → List String → V → Written V
  | .node path item children, [], value =>
      ⟨.node path (some value) children, item, 0, path⟩
  | .node path item children, name :: rest, value =>
      let found := Children.find? name children
      let child := found.getD (ofRoot (path.below name))
      let below := child.write rest value
      let made := if found.isSome then 0 else 1
      { below with
        tree := .node path item
          (Children.insert name below.tree children)
        created := made + below.created }

/- Put a value at a key. -/
def add
    (tree : Tree V)
    (key : Path)
    (value : V) : Written V :=
  tree.write key.segments value

/- Put values at keys, one after another. -/
def addAll
    (tree : Tree V)
    (entries : List (Path × V)) : Tree V :=
  entries.foldl
    (fun tree entry => (tree.add entry.1 entry.2).tree) tree

/-
  What each of the writes does that put values at keys, one
  after another.
-/
def writes
    (tree : Tree V) : List (Path × V) → List (Written V)
  | [] => []
  | (key, value) :: rest =>
      let written := tree.add key value
      written :: written.tree.writes rest

/- The tree at the root of all paths with given entries. -/
def ofList
    (entries : List (Path × V)) : Tree V :=
  empty.addAll entries

/-
  Put a tree in place of the node that a list of names
  leads to. Where there is no such node, nothing changes.
-/
def graft : Tree V → List String → Tree V → Tree V
  | _, [], new => new
  | .node path item children, name :: rest, new =>
      match Children.find? name children with
      | none => .node path item children
      | some child =>
          .node path item
            (Children.insert name (child.graft rest new) children)

/-
  Put another value at a key that holds one already. The
  answer is the value that was replaced, and the tree after.
-/
def assign
    (tree : Tree V)
    (key : Path)
    (value : V) : Except PathError (V × Tree V) :=
  match tree.descend? key.segments with
  | some (.node path (some old) children) =>
      let new := node path (some value) children
      .ok (old, tree.graft key.segments new)
  | _ => .error (.notFound key)

end Tree

end HierPath

------------------------------------------------------------
-- Whole Trees
------------------------------------------------------------

namespace HierPath

namespace Tree

variable {V : Type u}

mutual

/- The number of values held in a tree. -/
def count : Tree V → Nat
  | .node _ item children =>
      (if item.isSome then 1 else 0) + countAll children

/- The number of values held in named trees. -/
def countAll : List (String × Tree V) → Nat
  | [] => 0
  | (_, tree) :: rest => tree.count + countAll rest

end

mutual

/- The number of nodes of a tree. -/
def nodeCount : Tree V → Nat
  | .node _ _ children => 1 + nodeCountAll children

/- The number of nodes of named trees. -/
def nodeCountAll : List (String × Tree V) → Nat
  | [] => 0
  | (_, tree) :: rest => tree.nodeCount + nodeCountAll rest

end

mutual

/-
  The values of a tree with the paths of their nodes, a
  node before those below it and children in order.
-/
def entries : Tree V → List (Path × V)
  | .node path item children =>
      (item.map fun value => (path, value)).toList
        ++ entriesAll children

/- The values of named trees, tree by tree. -/
def entriesAll : List (String × Tree V) → List (Path × V)
  | [] => []
  | (_, tree) :: rest => tree.entries ++ entriesAll rest

end

/- The paths at which a tree holds values, in order. -/
def paths
    (tree : Tree V) : List Path :=
  tree.entries.map Prod.fst

/- No value is held anywhere in a tree. -/
def isEmpty
    (tree : Tree V) : Bool :=
  tree.entries.isEmpty

mutual

/- Trees of the same paths, values, names and children. -/
def same [BEq V] : Tree V → Tree V → Bool
  | .node p a children, .node q b others =>
      p == q && a == b && sameAll children others

/- Lists of the same named trees. -/
def sameAll [BEq V] :
    List (String × Tree V) → List (String × Tree V) → Bool
  | [], [] => true
  | (name, tree) :: rest, (other, twin) :: others =>
      name == other && tree.same twin && sameAll rest others
  | _, _ => false

end

instance [BEq V] : BEq (Tree V) where
  beq := same

end Tree

end HierPath
