import HierPath.Event
import HierPath.Path.Parse
import HierPath.Text.Blank
import HierPath.Tree.Select

/-
  Key lists: texts with one path on a line.

  Lines are numbered from one. Blank lines and lines that
  start with `#` are passed over but counted. Every other
  line is a key, read against a context, and the tree of a
  key list holds at each key the number of its last line.

  Loading goes on until a key cannot be read. Its events
  are kept either way.

  Key definitions include:
    * `KeyLine`
    * `KeyList.keyLines`
    * `KeyListError`
    * `Loading`
    * `KeyList.load`
    * `KeyList.compile`
    * `KeyList.select`
-/

------------------------------------------------------------
-- Key Lines
------------------------------------------------------------

namespace HierPath

/- A line that holds a key: its number and trimmed text. -/
structure KeyLine where
  number : Nat
  text : List Char
deriving DecidableEq

namespace KeyList

/- The trimmed line holds a key. -/
def isKey : List Char → Bool
  | [] => false
  | '#' :: _ => false
  | _ => true

/- Number the lines of a text, and keep those with a key. -/
def keyLines
    (content : String) : List KeyLine :=
  let lines := (Text.lines content.toList).map Text.trim
  let numbered := lines.zipIdx 1
  (numbered.filter fun line => isKey line.1).map fun line =>
    ⟨line.2, line.1⟩

end KeyList

end HierPath

------------------------------------------------------------
-- Failures
------------------------------------------------------------

namespace HierPath

/- What can go wrong with key lists and their patterns. -/
inductive KeyListError where
  | invalidKey
      (line : Nat)
      (text : String)
      (cause : PathError)
  | invalidPattern
      (raw : String)
      (cause : PathError)
  | uncompilable
      (cause : PathError)
  | unreadableArea
      (cause : PathError)
  | emptyArea
      (area : Path)
      (cause : PathError)
deriving DecidableEq

namespace KeyListError

/- The failure at the bottom of it. -/
def cause : KeyListError → PathError
  | .invalidKey _ _ cause => cause
  | .invalidPattern _ cause => cause
  | .uncompilable cause => cause
  | .unreadableArea cause => cause
  | .emptyArea _ cause => cause

/- The messages of a failure, the outermost first. -/
def messages : KeyListError → List String
  | .invalidKey line text cause =>
      s!"Invalid key on line {line}: '{text}'" :: cause.messages
  | .invalidPattern raw cause =>
      s!"Invalid pattern: '{raw}'" :: cause.messages
  | .uncompilable cause => cause.messages
  | .unreadableArea cause => cause.messages
  | .emptyArea area cause =>
      s!"No keys under {area}" :: cause.messages

end KeyListError

end HierPath

------------------------------------------------------------
-- Loading
------------------------------------------------------------

namespace HierPath

/- The end of a loading and the events on the way there. -/
structure Loading where
  outcome : Except KeyListError (Tree Nat)
  events : List Event

namespace KeyList

/-
  The events of storing a key line: those of the write, and
  a warning where an earlier line had the key.
-/
def storeEvents
    (key : Path)
    (line : Nat)
    (written : Written Nat) : List Event :=
  written.events
    ++ (written.previous.map fun earlier =>
      .repeated key line earlier).toList

/- Load key lines into a tree, one after another. -/
def loadLines
    (context : Option Path)
    (tree : Tree Nat) : List KeyLine → Loading
  | [] =>
      ⟨.ok tree, [.loaded tree.count tree.nodeCount]⟩
  | line :: rest =>
      let text := String.ofList line.text
      match Path.parseIn context text with
      | .error cause =>
          ⟨.error (.invalidKey line.number text cause), []⟩
      | .ok key =>
          let written := tree.add key line.number
          let loading := loadLines context written.tree rest
          { loading with
            events :=
              storeEvents key line.number written
                ++ loading.events }

/- Load the text of a key list. -/
def load
    (context : Option Path)
    (content : String) : Loading :=
  loadLines context .empty (keyLines content)

end KeyList

end HierPath

------------------------------------------------------------
-- Selecting
------------------------------------------------------------

namespace HierPath

namespace KeyList

/-
  Read a pattern as keys are read, so that a relative
  pattern selects keys below the context.
-/
def compile
    (context : Option Path)
    (raw : String) : Except KeyListError Pattern := do
  let source ←
    (Path.parseIn context raw).mapError (.invalidPattern raw)
  (Pattern.compile source).mapError .uncompilable

/- Read the area that a selection is narrowed to. -/
def readArea
    (context : Option Path)
    (raw : String) : Except KeyListError Path :=
  (Path.parseIn context raw).mapError .unreadableArea

/-
  The keys that match a pattern, narrowed to an area where
  one is given. The pattern is matched against whole keys
  all the same. An area without any node is an error.
-/
def select
    (tree : Tree Nat)
    (pattern : Pattern)
    (area : Option Path) :
    Except KeyListError (List (Path × Nat)) := do
  match area with
  | none => return tree.select pattern
  | some area =>
      let _ ← (tree.subtree area).mapError (.emptyArea area)
      return (tree.select pattern).filter fun entry =>
        area.segments.isPrefixOf entry.1.segments

end KeyList

end HierPath
