/-
  Command lines: from words to what is asked for.

  A command line has options for all commands, the name of
  a command, and the words and options of that command.
  Words are read from left to right, and the first thing
  that settles the matter does: an error, or a request for
  help or for the version.

  Options have a long name and may have a short one. The
  value of an option stands in the same word or is the next
  word. Short options can share a word. Two dashes end the
  options, and a single dash is a plain word. No option is
  given twice at one level, but an option for all commands
  may stand on both sides of the command's name.

  Key definitions include:
    * `Command.Flag`
    * `Command.UsageError`
    * `Command.Given`
    * `Command.readWords`
    * `Command.Task`
    * `Command.Invocation`
    * `Command.Request`
    * `Command.parse`
-/

------------------------------------------------------------
-- Options
------------------------------------------------------------

namespace HierPath

namespace Command

/- The options of all commands. -/
inductive Flag where
  | config
  | verbose
  | context
  | file
  | under
  | help
  | version
deriving DecidableEq

/- What an option takes: nothing, a text, or a file name. -/
inductive Takes where
  | nothing
  | text
  | file
deriving DecidableEq

namespace Flag

/- The long name of an option. -/
def long : Flag → String
  | .config => "config"
  | .verbose => "verbose"
  | .context => "context"
  | .file => "file"
  | .under => "under"
  | .help => "help"
  | .version => "version"

/- The short name of an option. -/
def short? : Flag → Option Char
  | .config => some 'c'
  | .verbose => some 'v'
  | .context => none
  | .file => some 'f'
  | .under => none
  | .help => some 'h'
  | .version => some 'V'

/- What an option takes. -/
def takes : Flag → Takes
  | .config => .file
  | .verbose => .nothing
  | .context => .text
  | .file => .file
  | .under => .text
  | .help => .nothing
  | .version => .nothing

end Flag

/-
  The words of one level: its options, whether the first
  plain word ends the level, and how many plain words there
  may be at most.
-/
structure Grammar where
  flags : List Flag
  stops : Bool
  limit : Option Nat

/- The level before the name of a command. -/
def outerLevel : Grammar where
  flags := [.config, .verbose, .help, .version]
  stops := true
  limit := none

end Command

end HierPath

------------------------------------------------------------
-- Words
------------------------------------------------------------

namespace HierPath

namespace Command

/- Why a command line makes no sense. -/
inductive UsageError where
  | missingCommand
  | unknownCommand (word : String)
  | unknownOption (word : String)
  | unexpectedWord (word : String)
  | missingWord (name : String)
  | missingValue (flag : Flag)
  | unexpectedValue (flag : Flag)
  | repeated (flag : Flag)
deriving DecidableEq

/- What ends the reading of words before their end. -/
inductive Stop where
  | usage (e : UsageError)
  | help
  | version
deriving DecidableEq

/-
  What the words of one level give: its options with their
  values, its plain words, and the words left unread.
-/
structure Given where
  options : List (Flag × String) := []
  words : List String := []
  unread : List String := []
deriving DecidableEq

namespace Given

/- The value of an option. -/
def value?
    (given : Given)
    (flag : Flag) : Option String :=
  given.options.lookup flag

/- The option is given. -/
def has
    (given : Given)
    (flag : Flag) : Bool :=
  (given.value? flag).isSome

/- Add a plain word, if there may be one more. -/
def addWord
    (given : Given)
    (limit : Option Nat)
    (word : String) : Except Stop Given :=
  if limit.any (· ≤ given.words.length) then
    .error (.usage (.unexpectedWord word))
  else
    .ok { given with words := given.words ++ [word] }

/-
  Add an option with its value. Asking for help or for the
  version stops the reading.
-/
def addOption
    (given : Given)
    (flag : Flag)
    (value : String) : Except Stop Given :=
  if flag = .help then
    .error .help
  else if flag = .version then
    .error .version
  else if given.has flag then
    .error (.usage (.repeated flag))
  else if flag.takes = .file && value.isEmpty then
    .error (.usage (.missingValue flag))
  else
    .ok { given with options := (flag, value) :: given.options }

end Given

/- The word is an option and no plain word. -/
def looksLikeOption
    (word : String) : Bool :=
  match word.toList with
  | ['-'] => false
  | '-' :: _ => true
  | _ => false

/-
  Read a word of short options. An option that takes a
  value takes the rest of the word, without an equals sign
  in front; if nothing is left, its value is still to come.
-/
def readShort
    (flags : List Flag)
    (word : String)
    (given : Given) :
    List Char → Except Stop (Given × Option Flag)
  | [] => .ok (given, none)
  | c :: rest =>
      match flags.find? fun flag => flag.short? = some c with
      | none => .error (.usage (.unknownOption word))
      | some flag =>
          if flag.takes = .nothing then do
            let given ← given.addOption flag ""
            readShort flags word given rest
          else
            match rest with
            | [] => .ok (given, some flag)
            | '=' :: value => do
                let value := String.ofList value
                return (← given.addOption flag value, none)
            | value => do
                let value := String.ofList value
                return (← given.addOption flag value, none)

/-
  Read a word with a long option, given without its dashes.
  An equals sign separates the name from a value; without
  it the value is still to come.
-/
def readLong
    (flags : List Flag)
    (word : String)
    (given : Given)
    (chars : List Char) :
    Except Stop (Given × Option Flag) :=
  let (name, value) := chars.span (· ≠ '=')
  match flags.find? fun flag => flag.long.toList = name with
  | none => .error (.usage (.unknownOption word))
  | some flag =>
      match flag.takes, value with
      | .nothing, [] => do
          return (← given.addOption flag "", none)
      | .nothing, _ :: _ =>
          .error (.usage (.unexpectedValue flag))
      | _, [] => .ok (given, some flag)
      | _, _ :: value => do
          let value := String.ofList value
          return (← given.addOption flag value, none)

/-
  Read the words of one level. An option that waits for its
  value takes the next plain word.
-/
def readWords
    (grammar : Grammar)
    (given : Given) :
    Option Flag → List String → Except Stop Given
  | none, [] => .ok given
  | some flag, [] => .error (.usage (.missingValue flag))
  | some flag, word :: rest =>
      if looksLikeOption word then
        .error (.usage (.missingValue flag))
      else do
        let given ← given.addOption flag word
        readWords grammar given none rest
  | none, word :: rest =>
      if !looksLikeOption word then do
        let given ← given.addWord grammar.limit word
        if grammar.stops then
          return { given with unread := rest }
        else
          readWords grammar given none rest
      else
        match word.toList with
        | ['-', '-'] =>
            match grammar.stops, rest with
            | true, word :: _ =>
                .error (.usage (.unexpectedWord word))
            | _, _ => rest.foldlM (Given.addWord · grammar.limit) given
        | '-' :: '-' :: chars => do
            let (given, waiting) ←
              readLong grammar.flags word given chars
            readWords grammar given waiting rest
        | chars => do
            let (given, waiting) ←
              readShort grammar.flags word given (chars.drop 1)
            readWords grammar given waiting rest

end Command

end HierPath

------------------------------------------------------------
-- Commands
------------------------------------------------------------

namespace HierPath

namespace Command

/- The commands that do something, by name. -/
inductive Topic where
  | normalize
  | test
  | select
  | tree
deriving DecidableEq

namespace Topic

/- All commands, in the order in which help lists them. -/
def all : List Topic :=
  [.normalize, .test, .select, .tree]

/- The name of a command. -/
def name : Topic → String
  | .normalize => "normalize"
  | .test => "match"
  | .select => "select"
  | .tree => "tree"

/- The command of a name. -/
def ofName?
    (name : String) : Option Topic :=
  all.find? fun topic => topic.name = name

/- The options that may stand after the command's name. -/
def flags : Topic → List Flag
  | .normalize => [.context, .config, .verbose, .help]
  | .test => [.config, .verbose, .help]
  | .select => [.file, .under, .config, .verbose, .help]
  | .tree => [.file, .config, .verbose, .help]

/- How many plain words a command takes at most. -/
def limit : Topic → Option Nat
  | .normalize => none
  | .test => none
  | .select => some 1
  | .tree => some 0

/- The level behind the name of a command. -/
def level
    (topic : Topic) : Grammar where
  flags := topic.flags
  stops := false
  limit := topic.limit

end Topic

/- The name under which help is asked for. -/
def helpName : String :=
  "help"

/- What is to be done, with all that it needs. -/
inductive Task where
  | normalize
      (paths : List String)
      (context : Option String)
  | test
      (pattern : String)
      (paths : List String)
  | select
      (pattern : String)
      (file : Option String)
      (under : Option String)
  | tree
      (file : Option String)
deriving DecidableEq

/- A task with the options that all tasks have. -/
structure Invocation where
  config : Option String
  verbose : Bool
  task : Task
deriving DecidableEq

/- What a command line asks for. -/
inductive Request where
  | run (invocation : Invocation)
  | help (topic : Option Topic)
  | version
deriving DecidableEq

/- The task that the words of a command's level make up. -/
def taskOf
    (topic : Topic)
    (given : Given) : Except UsageError Task :=
  match topic, given.words with
  | .normalize, [] => .error (.missingWord "PATHS")
  | .normalize, paths =>
      .ok (.normalize paths (given.value? .context))
  | .test, [] => .error (.missingWord "PATTERN")
  | .test, [_] => .error (.missingWord "PATHS")
  | .test, pattern :: paths => .ok (.test pattern paths)
  | .select, [] => .error (.missingWord "PATTERN")
  | .select, pattern :: _ =>
      .ok (.select pattern (given.value? .file)
        (given.value? .under))
  | .tree, _ => .ok (.tree (given.value? .file))

/-
  What a command's words ask for, together with the options
  before the command's name. The options behind the name
  come first.
-/
def requestOf
    (topic : Topic)
    (outer : Given)
    (words : List String) : Except UsageError Request :=
  match readWords topic.level {} none words with
  | .error (.usage e) => .error e
  | .error .help => .ok (.help (some topic))
  | .error .version => .ok .version
  | .ok given => do
      let task ← taskOf topic given
      return .run {
        config := given.value? .config <|> outer.value? .config
        verbose := given.has .verbose || outer.has .verbose
        task := task }

/- The help that words ask for, of one command at most. -/
def helpOf : List String → Except UsageError Request
  | [] => .ok (.help none)
  | name :: rest =>
      match Topic.ofName? name, rest with
      | some topic, [] => .ok (.help (some topic))
      | some _, word :: _ => .error (.unknownCommand word)
      | none, [] =>
          if name = helpName then
            .ok (.help none)
          else
            .error (.unknownCommand name)
      | none, _ => .error (.unknownCommand name)

/- What a command line asks for. -/
def parse
    (words : List String) : Except UsageError Request :=
  match readWords outerLevel {} none words with
  | .error (.usage e) => .error e
  | .error .help => .ok (.help none)
  | .error .version => .ok .version
  | .ok outer =>
      match outer.words with
      | [] => .error .missingCommand
      | name :: _ =>
          match Topic.ofName? name with
          | some topic => requestOf topic outer outer.unread
          | none =>
              if name = helpName then
                helpOf outer.unread
              else
                .error (.unknownCommand name)

end Command

end HierPath
