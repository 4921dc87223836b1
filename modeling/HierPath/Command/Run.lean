import HierPath.Command.Failure
import HierPath.Command.Help
import HierPath.Command.Style
import HierPath.Outline

/-
  Running commands.

  All that a command needs from outside comes through a
  console: files, standard input, and places to print to.
  What a console's actions do is left open, so commands run
  on a real terminal as well as on a simulated one.

  A command prints what it has before it fails; a failure
  is reported at the very end.

  Key definitions include:
    * `Command.Console`
    * `Command.Session`
    * `Command.loadConfig`
    * `Command.loadKeys`
    * `Command.normalize`
    * `Command.test`
    * `Command.select`
    * `Command.tree`
    * `Command.run`
-/

------------------------------------------------------------
-- Consoles
------------------------------------------------------------

namespace HierPath

namespace Command

/-
  The outside world of a command: the directory it is run
  in, whether colors are shown, and its actions. An event
  is told together with the least level that is wanted.
-/
structure Console (m : Type → Type) where
  directory : String
  colored : Bool
  fileExists : String → m Bool
  fileText : String → m (Except FileFault String)
  inputText : m (Except FileFault String)
  print : String → m Unit
  complain : String → m Unit
  tell : Level → Event → m Unit

variable {m : Type → Type} [Monad m]

/- Actions that may end in a failure. -/
abbrev Fallible (m : Type → Type) :=
  ExceptT Failure m

/- A command's console, settings and level of events. -/
structure Session (m : Type → Type) where
  console : Console m
  config : Config
  wanted : Level

namespace Session

/- Print a line. -/
def line
    (session : Session m)
    (text : String) : Fallible m Unit :=
  session.console.print (text ++ "\n")

/- Print a line to where errors go. -/
def complaint
    (session : Session m)
    (text : String) : Fallible m Unit :=
  session.console.complain (text ++ "\n")

/- Tell events. -/
def tell
    (session : Session m)
    (events : List Event) : Fallible m Unit := do
  for event in events do
    session.console.tell session.wanted event

/- Text in a style, if colors are shown. -/
def paint
    (session : Session m)
    (style : Style)
    (text : String) : String :=
  let wanted := session.console.colored && session.config.color
  style.paint wanted text

end Session

/- Go on with a result, or fail as a rule says. -/
def orFail
    {ε α : Type}
    (failure : ε → Failure) :
    Except ε α → Fallible m α
  | .ok a => return a
  | .error e => throw (failure e)

end Command

end HierPath

------------------------------------------------------------
-- Settings And Key Lists
------------------------------------------------------------

namespace HierPath

namespace Command

variable {m : Type → Type} [Monad m]

/- The file that settings are in unless another is named. -/
def configName : String :=
  "spath.toml"

/- A file of a directory. -/
def fileIn
    (directory name : String) : String :=
  if directory.toList.getLast? = some '/' then
    directory ++ name
  else
    directory ++ "/" ++ name

/- Read the settings of a file. -/
def readConfig
    (console : Console m)
    (file : String) : Fallible m Config := do
  let content ←
    orFail (.configFile file) (← console.fileText file)
  orFail (.config file) (Config.parse content)

/-
  Read the settings of the file that is named, or else of
  the usual file, which need not be there.
-/
def loadConfig
    (console : Console m)
    (wanted : Level) :
    Option String → Fallible m Config
  | some file => readConfig console file
  | none => do
      let file := fileIn console.directory configName
      if ← console.fileExists file then
        console.tell wanted (.readingConfig file)
        readConfig console file
      else
        return {}

/- Load the key list of a file or of standard input. -/
def loadKeys
    (session : Session m)
    (file : Option String) : Fallible m (Tree Nat) := do
  let content ←
    match file with
    | some file =>
        orFail (.keyFile file) (← session.console.fileText file)
    | none => orFail .input (← session.console.inputText)
  let loading := KeyList.load session.config.context content
  session.tell loading.events
  orFail .keyList loading.outcome

/- Compile a pattern, and tell so. -/
def compile
    (session : Session m)
    (raw : String) : Fallible m Pattern := do
  let pattern ←
    orFail .keyList (KeyList.compile session.config.context raw)
  session.tell pattern.events
  return pattern

end Command

end HierPath

------------------------------------------------------------
-- Commands
------------------------------------------------------------

namespace HierPath

namespace Command

variable {m : Type → Type} [Monad m]

/-
  Print the spelling of each path. Texts that are no paths
  are complained about one by one and counted.
-/
def normalize
    (session : Session m)
    (paths : List String)
    (context : Option String) : Fallible m Unit := do
  let context ←
    match context with
    | some raw => some <$> orFail .path (Path.parse raw)
    | none => pure session.config.context
  let results := paths.map fun raw =>
    (raw, Path.parseIn context raw)
  for (raw, result) in results do
    match result with
    | .ok path => session.line path.text
    | .error e =>
        let mark := session.paint .red "✗"
        session.complaint s!"{mark} {raw}: {e.message}"
  let failed := results.countP fun result => !result.2.isOk
  if failed > 0 then
    throw (.rejected failed paths.length)

/-
  Print for each path whether a pattern matches it. A text
  that is no path ends the command.
-/
def test
    (session : Session m)
    (pattern : String)
    (paths : List String) : Fallible m Unit := do
  let pattern ← compile session pattern
  let name := session.paint .cyan pattern.text
  session.line s!"Pattern: {name}"
  for raw in paths do
    let path ←
      orFail .path (Path.parseIn session.config.context raw)
    if pattern.isMatch path then
      let mark := session.paint .green "✓"
      session.line s!"{mark} {path}"
    else
      let mark := session.paint .red "✗"
      let text := session.paint .dim path.text
      session.line s!"{mark} {text}"

/- Print the keys that a pattern selects from a key list. -/
def select
    (session : Session m)
    (pattern : String)
    (file under : Option String) : Fallible m Unit := do
  let config := session.config
  let pattern ← compile session pattern
  let tree ← loadKeys session file
  let area ←
    match under with
    | none => pure none
    | some raw =>
        some <$>
          orFail .keyList (KeyList.readArea config.context raw)
  let hits ← orFail .keyList (KeyList.select tree pattern area)
  for (key, line) in hits do
    if config.showValues then
      let remark := session.paint .dim s!"(line {line})"
      session.line s!"{key} {remark}"
    else
      session.line key.text
  session.tell [.selected hits.length tree.count]

/- Print the outline of a key list, and count its keys. -/
def tree
    (session : Session m)
    (file : Option String) : Fallible m Unit := do
  let tree ← loadKeys session file
  let keys := session.paint .boldGreen (toString tree.count)
  let nodes := session.paint .cyan (toString tree.nodeCount)
  session.line (tree.outline session.config.showValues)
  session.line s!"{keys} keys, {nodes} nodes"

/- Do what an invocation asks for. -/
def perform
    (console : Console m)
    (invocation : Invocation) : Fallible m Unit := do
  let wanted := if invocation.verbose then .debug else .warn
  let config ← loadConfig console wanted invocation.config
  let session : Session m := ⟨console, config, wanted⟩
  match invocation.task with
  | .normalize paths context => normalize session paths context
  | .test pattern paths => test session pattern paths
  | .select pattern file under => select session pattern file under
  | .tree file => tree session file

/-
  Run a command line. The answer is the status to exit
  with: zero if all went well, one after a failure, and two
  for a command line that makes no sense.
-/
def run
    (console : Console m)
    (words : List String) : m Nat := do
  match parse words with
  | .error e =>
      console.complain e.report
      return 2
  | .ok (.help topic) =>
      console.print (help topic)
      return 0
  | .ok .version =>
      console.print version
      return 0
  | .ok (.run invocation) =>
      match ← (perform console invocation).run with
      | .ok () => return 0
      | .error failure =>
          console.complain failure.report
          return 1

end Command

end HierPath
