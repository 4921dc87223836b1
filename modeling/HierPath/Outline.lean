import HierPath.Tree.Basic

/-
  Outlines: the tree of a key list as indented text.

  An outline has one line for each node. A line is indented
  by the depth of its node below the top, marks whether the
  node holds a value, and names the node: the top by its
  whole path, any other by its escaped name.

  Key definitions include:
    * `Outline.mark`
    * `Outline.line`
    * `Tree.outline`
-/

------------------------------------------------------------
-- Outlines
------------------------------------------------------------

namespace HierPath

namespace Outline

/- The mark of a node with or without a value. -/
def mark : Option Nat → Char
  | some _ => '●'
  | none => '○'

/- What is told about a value, if values are shown. -/
def remark
    (showValues : Bool)
    (item : Option Nat) : String :=
  match showValues, item with
  | true, some line => s!" (line {line})"
  | _, _ => ""

/- The line of a node at a depth below the top. -/
def line
    (showValues : Bool)
    (depth : Nat)
    (path : Path)
    (item : Option Nat) : String :=
  let name :=
    if depth = 0 then path.text else Segment.escape path.last
  let indent := String.ofList (List.replicate (2 * depth) ' ')
  let sign := mark item
  let note := remark showValues item
  s!"{indent}{sign} {name}{note}\n"

mutual

/- The lines of a node and of all nodes below it. -/
def lines
    (showValues : Bool)
    (depth : Nat) : Tree Nat → List String
  | .node path item children =>
      line showValues depth path item
        :: linesAll showValues (depth + 1) children

/- The lines of named nodes, node by node. -/
def linesAll
    (showValues : Bool)
    (depth : Nat) : List (String × Tree Nat) → List String
  | [] => []
  | (_, tree) :: rest =>
      lines showValues depth tree
        ++ linesAll showValues depth rest

end

end Outline

namespace Tree

/- The outline of a tree. -/
def outline
    (showValues : Bool)
    (tree : Tree Nat) : String :=
  String.join (Outline.lines showValues 0 tree)

end Tree

end HierPath
