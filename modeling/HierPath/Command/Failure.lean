import HierPath.Config
import HierPath.KeyList

/-
  Failures of commands, and the report on a failure.

  A failure is a chain of messages, the outermost first.
  The report gives the first message in a line of its own
  and the others below it as its causes. A message that has
  several lines is indented as a whole.

  Key definitions include:
    * `Command.FileFault`
    * `Command.Failure`
    * `Command.Failure.messages`
    * `Command.Failure.report`
-/

------------------------------------------------------------
-- Failures
------------------------------------------------------------

namespace HierPath

namespace Command

/- Why the text of a file cannot be had. -/
inductive FileFault where
  | missing
  | isDirectory
  | notDirectory
  | tooLong
  | forbidden
  | notText
  | other (problem : String)
deriving DecidableEq

namespace FileFault

/- The one line that tells a user what went wrong. -/
def message : FileFault → String
  | .missing => "No such file or directory (os error 2)"
  | .isDirectory => "Is a directory (os error 21)"
  | .notDirectory => "Not a directory (os error 20)"
  | .tooLong => "File name too long (os error 36)"
  | .forbidden => "Permission denied (os error 13)"
  | .notText => "stream did not contain valid UTF-8"
  | .other problem => problem

end FileFault

/- The ways in which a command can fail. -/
inductive Failure where
  | path (cause : PathError)
  | keyList (cause : KeyListError)
  | config (file : String) (cause : ConfigError)
  | configFile (file : String) (cause : FileFault)
  | keyFile (file : String) (cause : FileFault)
  | input (cause : FileFault)
  | rejected (failed total : Nat)
deriving DecidableEq

namespace Failure

/- The messages of a failure, the outermost first. -/
def messages : Failure → List String
  | .path cause => cause.messages
  | .keyList cause => cause.messages
  | .config file cause =>
      s!"Failed to parse config file: {file}" :: cause.messages
  | .configFile file cause =>
      [s!"Failed to read config file: {file}", cause.message]
  | .keyFile file cause =>
      [s!"Failed to read key list: {file}", cause.message]
  | .input cause =>
      ["Failed to read key list from stdin", cause.message]
  | .rejected failed total =>
      [s!"{failed} of {total} paths failed to parse"]

end Failure

end Command

end HierPath

------------------------------------------------------------
-- Reports
------------------------------------------------------------

namespace HierPath

namespace Command

namespace Failure

/- Put an indent after every line feed of a text. -/
def hang
    (indent : List Char)
    (text : String) : String :=
  String.ofList
    (text.toList.flatMap fun c =>
      if c = '\n' then c :: indent else [c])

/- A cause that is the only one. -/
def singleCause
    (message : String) : String :=
  let indent := List.replicate 4 ' '
  "\n" ++ String.ofList indent ++ hang indent message

/- One of several causes, with its number. -/
def numberedCause
    (message : String)
    (number : Nat) : String :=
  let digits := toString number
  let pad := List.replicate (5 - digits.length) ' '
  let indent := List.replicate 7 ' '
  "\n" ++ String.ofList pad ++ digits ++ ": "
    ++ hang indent message

/- The causes of a failure, below a heading. -/
def causes : List String → String
  | [] => ""
  | [message] =>
      "\n\nCaused by:" ++ singleCause message
  | messages =>
      let lines := messages.zipIdx.map fun cause =>
        numberedCause cause.1 cause.2
      "\n\nCaused by:" ++ String.join lines

/- The whole report on a failure. -/
def report
    (failure : Failure) : String :=
  match failure.messages with
  | [] => ""
  | message :: rest =>
      let below := causes rest
      s!"Error: {message}{below}\n"

end Failure

end Command

end HierPath
