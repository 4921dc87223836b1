import HierPath.Command.Arguments

/-
  Help texts, and the texts about command lines that make
  no sense.

  Key definitions include:
    * `Command.version`
    * `Command.help`
    * `Command.UsageError.report`
-/

------------------------------------------------------------
-- Usage Lines
------------------------------------------------------------

namespace HierPath

namespace Command

/- The name of the program. -/
def program : String :=
  "spath"

/- The line that tells the version. -/
def version : String :=
  s!"{program} 0.1.0\n"

namespace Topic

/- What a command does. -/
def summary : Topic → String
  | .normalize => "Print the canonical form of each path"
  | .test => "Test candidate paths against a glob pattern"
  | .select =>
      "Select keys from a key list with a glob pattern"
  | .tree => "Print the trie built from a key list"

/- The words that a command takes, with what they are. -/
def wordHelp : Topic → List (String × String)
  | .normalize => [("<PATHS>...", "Paths to normalize")]
  | .test =>
      [("<PATTERN>", "Pattern, e.g. /server/**/port"),
        ("<PATHS>...", "Candidate paths")]
  | .select => [("<PATTERN>", "Pattern, e.g. /server/*/port")]
  | .tree => []

/- The line that shows how a command is written. -/
def usage
    (topic : Topic) : String :=
  let words := topic.wordHelp.map fun word => " " ++ word.1
  s!"Usage: {program} {topic.name} [OPTIONS]"
    ++ String.join words

end Topic

/- The line that shows how a command line is written. -/
def usage : Option Topic → String
  | none => s!"Usage: {program} [OPTIONS] <COMMAND>"
  | some topic => topic.usage

end Command

end HierPath

------------------------------------------------------------
-- Help
------------------------------------------------------------

namespace HierPath

namespace Command

namespace Flag

/- What an option is for. -/
def summary : Flag → String
  | .config =>
      "Config file (default: ./spath.toml if present)"
  | .verbose => "Enable debug logging"
  | .context =>
      "Context for relative paths (overrides [paths] context)"
  | .file => "Key list, one path per line (default: stdin)"
  | .under => "Only consider keys under this prefix"
  | .help => "Print help"
  | .version => "Print version"

/- How an option is written. -/
def form
    (flag : Flag) : String :=
  let short :=
    match flag.short? with
    | some c => s!"-{c}, "
    | none => "    "
  let value :=
    match flag.takes with
    | .nothing => ""
    | _ => s!" <{flag.long.toUpper}>"
  s!"{short}--{flag.long}{value}"

end Flag

/- Rows of two columns, the second one in line. -/
def table
    (rows : List (String × String)) : String :=
  let width :=
    rows.foldl (fun width row => max width row.1.length) 0
  let line (row : String × String) : String :=
    let pad := List.replicate (width - row.1.length) ' '
    s!"  {row.1}{String.ofList pad}  {row.2}\n"
  String.join (rows.map line)

/- A table with a heading, or nothing for an empty table. -/
def block
    (heading : String)
    (rows : List (String × String)) : String :=
  if rows.isEmpty then
    ""
  else
    s!"\n{heading}:\n" ++ table rows

/- The rows for the commands. -/
def commandRows : List (String × String) :=
  Topic.all.map (fun topic => (topic.name, topic.summary))
    ++ [(helpName,
      "Print this message or the help of the given subcommand(s)")]

/- The rows for options. -/
def flagRows
    (flags : List Flag) : List (String × String) :=
  flags.map fun flag => (flag.form, flag.summary)

/- The help for the whole program or for one command. -/
def help : Option Topic → String
  | none =>
      "Normalize paths, test glob selectors and query path trees\n\n"
        ++ usage none ++ "\n"
        ++ block "Commands" commandRows
        ++ block "Options" (flagRows outerLevel.flags)
  | some topic =>
      topic.summary ++ "\n\n" ++ topic.usage ++ "\n"
        ++ block "Arguments" topic.wordHelp
        ++ block "Options" (flagRows topic.flags)

end Command

end HierPath

------------------------------------------------------------
-- Usage Errors
------------------------------------------------------------

namespace HierPath

namespace Command

namespace UsageError

/- The one line that tells a user what went wrong. -/
def message : UsageError → String
  | .missingCommand => "a command is required"
  | .unknownCommand word =>
      s!"unrecognized subcommand '{word}'"
  | .unknownOption word =>
      s!"unexpected argument '{word}' found"
  | .unexpectedWord word =>
      s!"unexpected argument '{word}' found"
  | .missingWord name =>
      s!"the required argument <{name}> was not provided"
  | .missingValue flag =>
      s!"a value is required for '--{flag.long}'"
  | .unexpectedValue flag =>
      s!"'--{flag.long}' takes no value"
  | .repeated flag =>
      s!"'--{flag.long}' cannot be used multiple times"

/-
  What is printed about a command line that makes no sense.
  Without a command this is the help for the program.
-/
def report : UsageError → String
  | .missingCommand => help none
  | e =>
      s!"error: {e.message}\n\n" ++ usage none
        ++ "\n\nFor more information, try '--help'.\n"

end UsageError

end Command

end HierPath
