import HierPath.Command.Run

/-
  The program on a real terminal.

  Everything here is the console that commands run on:
  files and standard streams, the working directory, and
  the environment variables about colors.
-/

------------------------------------------------------------
-- Files
------------------------------------------------------------

namespace HierPath

namespace Terminal

/- A code is that of a system error, with either sign. -/
def isCode
    (number code : UInt32) : Bool :=
  code = number || code = 0 - number

/- What a system error says about a file. -/
def faultOf
    (e : IO.Error) : Command.FileFault :=
  match e with
  | .noFileOrDirectory _ _ _ => .missing
  | .inappropriateType _ code _ =>
      if isCode 21 code then .isDirectory else .notDirectory
  | .invalidArgument _ code _ =>
      if isCode 36 code then .tooLong else .other (toString e)
  | .permissionDenied _ _ _ => .forbidden
  | .userError _ => .notText
  | _ => .other (toString e)

/- Keep a system error as a value. -/
def attempt
    (action : IO String) :
    IO (Except Command.FileFault String) :=
  try
    return .ok (← action)
  catch e =>
    return .error (faultOf e)

/- A file can be opened, or there is at least something. -/
def fileExists
    (file : String) : IO Bool := do
  try
    let _ ← IO.FS.Handle.mk file .read
    return true
  catch e =>
    match faultOf e with
    | .missing => return false
    | .notDirectory => return false
    | .tooLong => return false
    | _ => return true

end Terminal

end HierPath

------------------------------------------------------------
-- The Terminal
------------------------------------------------------------

namespace HierPath

namespace Terminal

/- An environment variable that is set to anything but `0`. -/
def isOn
    (name : String) : IO (Option Bool) := do
  return (← IO.getEnv name).map (· ≠ "0")

/- Whether the environment and the terminal ask for colors. -/
def wantsColor : IO Bool := do
  if (← isOn "CLICOLOR_FORCE") = some true then
    return true
  if (← isOn "NO_COLOR").isSome then
    return false
  if (← isOn "CLICOLOR") = some false then
    return false
  (← IO.getStdout).isTty

/- The console of the terminal that the program runs on. -/
def console : IO (Command.Console IO) := do
  let output ← IO.getStdout
  let errors ← IO.getStderr
  return {
    directory := toString (← IO.currentDir)
    colored := ← wantsColor
    fileExists := fileExists
    fileText := fun file => attempt (IO.FS.readFile file)
    inputText := attempt do
      (← IO.getStdin).readToEnd
    print := fun text => do
      output.putStr text
      output.flush
    complain := fun text => errors.putStr text
    tell := fun wanted event => do
      if event.level.reaches wanted then
        errors.putStr (event.line ++ "\n") }

end Terminal

end HierPath

------------------------------------------------------------
-- Entry
------------------------------------------------------------

/- Run the command line that the program is given. -/
def main
    (args : List String) : IO UInt32 := do
  let console ← HierPath.Terminal.console
  let status ← HierPath.Command.run console args
  return status.toUInt32
