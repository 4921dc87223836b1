import HierPath.Command.Run
import HierPath.Command.World

/-
  Running commands in a world that is given as data.

  A run of a command line in a world is a plain function,
  and its outcome has the exit status and all that was
  printed.

  Standard input is read to its end, so whoever reads it a
  second time gets nothing.

  Key definitions include:
    * `Command.Printed`
    * `Command.Outcome`
    * `Command.Scene`
    * `Command.World.console`
    * `Command.simulate`
-/

------------------------------------------------------------
-- Outcomes
------------------------------------------------------------

namespace HierPath

namespace Command

/- What has been printed, and what has been complained. -/
structure Printed where
  output : String := ""
  errors : String := ""
deriving DecidableEq

/- How a run has ended, and what it has printed. -/
structure Outcome where
  status : Nat
  printed : Printed
deriving DecidableEq

end Command

end HierPath

------------------------------------------------------------
-- Scenes
------------------------------------------------------------

namespace HierPath

namespace Command

/- A run so far: the input not yet read, and the output. -/
structure Scene where
  unread : String
  printed : Printed := {}

namespace Scene

/- Read all that is left of standard input. -/
def readInput : StateM Scene String :=
  modifyGet fun scene =>
    (scene.unread, { scene with unread := "" })

/- Print a text. -/
def print
    (text : String) : StateM Scene Unit :=
  modify fun scene =>
    let printed := scene.printed
    { scene with
      printed :=
        { printed with output := printed.output ++ text } }

/- Print a text to where errors go. -/
def complain
    (text : String) : StateM Scene Unit :=
  modify fun scene =>
    let printed := scene.printed
    { scene with
      printed :=
        { printed with errors := printed.errors ++ text } }

end Scene

end Command

end HierPath

------------------------------------------------------------
-- Runs
------------------------------------------------------------

namespace HierPath

namespace Command

/- Read a file of a world. -/
def World.read
    (world : World)
    (file : String) :
    StateM Scene (Except FileFault String) :=
  match world.find file with
  | .error fault => return .error fault
  | .ok .folder => return .error .isDirectory
  | .ok (.text content) => return .ok content
  | .ok .input => .ok <$> Scene.readInput

/- The console of a world. Events go unnoticed. -/
def World.console
    (world : World) : Console (StateM Scene) where
  directory := world.path
  colored := world.colored
  fileExists file := return world.exists? file
  fileText := world.read
  inputText := .ok <$> Scene.readInput
  print := Scene.print
  complain := Scene.complain
  tell _ _ := return ()

/- Run a command line in a world. -/
def simulate
    (world : World)
    (words : List String) : Outcome :=
  let start : Scene := { unread := world.input }
  let (status, scene) := (run world.console words).run start
  ⟨status, scene.printed⟩

end Command

end HierPath
