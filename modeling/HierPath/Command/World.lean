import HierPath.Command.Failure

/-
  Worlds: what lies around a command, given as data.

  A world has a system of files, the folder that commands
  are run in, the text of standard input, and colors.

  The name of a file is followed part by part, from the
  root if it starts with a slash, else from the folder that
  commands are run in. Whatever has a part after it must be
  a folder that is there, even if that part only leads back
  up. What is above the root is the root.

  Names have a limit on their length in bytes, and so has
  each part. The limit on a part is met when the part is
  looked up, so a missing folder in front of it counts
  first.

  Key definitions include:
    * `Command.Place`
    * `Command.World`
    * `Command.World.place?`
    * `Command.World.follow`
    * `Command.World.find`
    * `Command.World.exists?`
-/

------------------------------------------------------------
-- Places
------------------------------------------------------------

namespace HierPath

namespace Command

/-
  What is at a place: a folder, a file with its text, or
  standard input under the name of a file.
-/
inductive Place where
  | folder
  | text (content : String)
  | input
deriving DecidableEq

/-
  A world. Each place has the names that lead to it from
  the root. Folders with something in them, and the folder
  that commands are run in, need no entry.
-/
structure World where
  directory : List String
  places : List (List String × Place)
  input : String
  colored : Bool

namespace World

/- The place that names lead to from the root. -/
def place?
    (world : World)
    (names : List String) : Option Place :=
  match world.places.lookup names with
  | some place => some place
  | none =>
      let known := world.directory :: world.places.map (·.1)
      if known.any fun other => names.isPrefixOf other then
        some .folder
      else
        none

/- The full name of the folder that commands are run in. -/
def path
    (world : World) : String :=
  "/" ++ "/".intercalate world.directory

end World

end Command

end HierPath

------------------------------------------------------------
-- Names Of Files
------------------------------------------------------------

namespace HierPath

namespace Command

namespace World

/- The most bytes that the name of a file may have. -/
def nameLimit : Nat :=
  4095

/- The most bytes that a part of a name may have. -/
def partLimit : Nat :=
  255

/- Cut a name at each slash. -/
def parts
    (chars : List Char) : List String :=
  let cutAt (c : Char) : List (List Char) → List (List Char)
    | [] => [[c]]
    | part :: rest =>
        if c = '/' then
          [] :: part :: rest
        else
          (c :: part) :: rest
  (chars.foldr cutAt [[]]).map String.ofList

/- Go from a place to the one that parts of a name lead to. -/
def follow
    (world : World) :
    List String → List String → Except FileFault Place
  | here, [] =>
      match world.place? here with
      | some place => .ok place
      | none => .error .missing
  | here, part :: rest =>
      match world.place? here with
      | none => .error .missing
      | some .folder =>
          if part = "" || part = "." then
            world.follow here rest
          else if part = ".." then
            world.follow here.dropLast rest
          else if part.utf8ByteSize > partLimit then
            .error .tooLong
          else
            world.follow (here ++ [part]) rest
      | some _ => .error .notDirectory

/- Find the place that the name of a file leads to. -/
def find
    (world : World)
    (file : String) : Except FileFault Place :=
  if file = "" then
    .error .missing
  else if file.utf8ByteSize > nameLimit then
    .error .tooLong
  else
    match parts file.toList with
    | "" :: rest => world.follow [] rest
    | names => world.follow world.directory names

/- The name of a file leads to some place. -/
def exists?
    (world : World)
    (file : String) : Bool :=
  (world.find file).isOk

end World

end Command

end HierPath
