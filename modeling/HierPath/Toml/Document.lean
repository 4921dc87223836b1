import HierPath.Toml.Number
import HierPath.Toml.Text
import HierPath.Toml.Value

/-
  Reading TOML documents.

  A document is a sequence of lines that set a key, open a
  table by a header, or are empty. The table that is open
  is kept apart from the rest of the document and put in
  its place when the next header is met.

  Values may be nested, and dotted keys may have parts, up
  to a fixed depth. Reading of values is bounded by the
  number of characters: every value takes at least one, so
  a bound of twice their number is never met.

  Key definitions include:
    * `Toml.maxDepth`
    * `Toml.readKey`
    * `Toml.readValue`
    * `Toml.Draft`
    * `Toml.readStatement`
    * `Toml.SyntaxError`
    * `Toml.parse`
-/

------------------------------------------------------------
-- Keys
------------------------------------------------------------

namespace HierPath

namespace Toml

/- Dotted keys and nested values stay below this depth. -/
def maxDepth : Nat :=
  80

/- Characters of a key that has no quotes. -/
def isBare
    (c : Char) : Bool :=
  c.isAlphanum || c = '_' || c = '-'

/- Read one part of a key. -/
def readPart : Reader String := do
  match ← Reader.peek? with
  | some '"' => quotedLine '"'
  | some '\'' => quotedLine '\''
  | _ =>
      let chars ← Reader.takeWhile isBare
      if chars.isEmpty then
        Reader.fail "expected a key"
      else
        return String.ofList chars

/-
  Read a key with at most so many parts: the parts before
  the last one, and the last one.
-/
def readParts : Nat → Reader (List String × String)
  | 0 => Reader.fail "key with too many parts"
  | parts + 1 => do
      blanks
      let part ← readPart
      blanks
      if ← Reader.take? '.' then
        let (way, last) ← readParts parts
        return (part :: way, last)
      else
        return ([], part)

/- Read a key. -/
def readKey : Reader (List String × String) :=
  readParts (maxDepth - 1)

end Toml

end HierPath

------------------------------------------------------------
-- Values
------------------------------------------------------------

namespace HierPath

namespace Toml

/- Characters of values that are not quoted. -/
def isWord
    (c : Char) : Bool :=
  c.isAlphanum || c ∈ ['_', '-', '+', '.', ':']

/- The value that a bare word stands for. -/
def Value.ofWord?
    (word : List Char) : Option Value :=
  if word = ['t', 'r', 'u', 'e'] then
    some (.boolean true)
  else if word = ['f', 'a', 'l', 's', 'e'] then
    some (.boolean false)
  else if isMoment word then
    some (.moment (String.ofList word))
  else if isDecimal word then
    some (.decimal (String.ofList word))
  else
    (integer? word).map .integer

/-
  Read a value without quotes and brackets. A blank may
  stand between a date and a time of day.
-/
def readWord : Reader Value := do
  let word ← Reader.takeWhile isWord
  let chars ← get
  match isDate word, chars with
  | true, ' ' :: c :: rest =>
      if c.isDigit then
        let (time, rest) := (c :: rest).span isWord
        if isTimeWithOffset time then
          set rest
          return .moment (String.ofList (word ++ ' ' :: time))
        else
          Reader.fail "expected a time of day"
      else
        return .moment (String.ofList word)
  | _, _ => Reader.ofOption "expected a value" (Value.ofWord? word)

mutual

/- Read a value that may hold values up to a depth. -/
def readValue : Nat → Nat → Reader Value
  | 0, _ => Reader.fail "value too long"
  | bound + 1, depth => do
      match ← Reader.peek? with
      | some '"' => return .text (← quotedText '"')
      | some '\'' => return .text (← quotedText '\'')
      | some '[' =>
          Reader.expect '['
          match depth with
          | 0 => Reader.fail "value nested too deeply"
          | depth + 1 => return .array (← readElements bound depth)
      | some '{' =>
          Reader.expect '{'
          match depth with
          | 0 => Reader.fail "value nested too deeply"
          | depth + 1 =>
              blanks
              if ← Reader.take? '}' then
                return .table .inlined []
              else
                return .table .inlined (← readPairs bound depth [])
      | _ => readWord

/-
  Read the elements of an array and the bracket after them.
  A comma may follow the last element.
-/
def readElements : Nat → Nat → Reader (List Value)
  | 0, _ => Reader.fail "value too long"
  | bound + 1, depth => do
      layout
      if ← Reader.take? ']' then
        return []
      let value ← readValue bound depth
      layout
      if ← Reader.take? ',' then
        return value :: (← readElements bound depth)
      Reader.expect ']'
      return [value]

/-
  Read the settings of a table between braces and the brace
  after them. They stand in one line.
-/
def readPairs : Nat → Nat → Fields → Reader Fields
  | 0, _, _ => Reader.fail "value too long"
  | bound + 1, depth, fields => do
      let (way, name) ← readKey
      Reader.expect '='
      blanks
      let value ← readValue bound depth
      let fields ←
        Reader.ofOption "key set twice" (fields.put name value way)
      blanks
      if ← Reader.take? ',' then
        readPairs bound depth fields
      else
        Reader.expect '\x7d'
        return fields

end

end Toml

end HierPath

------------------------------------------------------------
-- Statements
------------------------------------------------------------

namespace HierPath

namespace Toml

/- The header of the table that is open. -/
inductive Header where
  | top
  | table (way : List String) (name : String)
  | element (way : List String) (name : String)

/-
  A document that is being read: the fields of the table
  that is open, its header, and all that was closed before.
-/
structure Draft where
  closed : Fields
  header : Header
  fields : Fields

namespace Draft

/- Nothing has been read. -/
def empty : Draft :=
  ⟨[], .top, []⟩

/- All fields of the document, the open table included. -/
def finish?
    (draft : Draft) : Option Fields :=
  match draft.header with
  | .top => some draft.fields
  | .table way name =>
      draft.closed.closeTable way name draft.fields
  | .element way name =>
      draft.closed.closeElement way name draft.fields

/- Close the open table and open the one of a header. -/
def startTable?
    (draft : Draft)
    (way : List String)
    (name : String) : Option Draft := do
  let closed ← draft.finish?
  let fields ← closed.startTable? way name
  return ⟨closed, .table way name, fields⟩

/- Close the open table and open the next one of a list. -/
def startElement?
    (draft : Draft)
    (way : List String)
    (name : String) : Option Draft := do
  let closed ← draft.finish?
  if closed.startsList way name then
    return ⟨closed, .element way name, []⟩
  else
    none

/- Set a key in the open table. -/
def set?
    (draft : Draft)
    (way : List String)
    (name : String)
    (value : Value) : Option Draft := do
  let fields ← draft.fields.put name value way
  return { draft with fields := fields }

end Draft

/- Read a header, whose first bracket has been taken. -/
def readHeader
    (draft : Draft) : Reader Draft := do
  let isElement ← Reader.take? '['
  let (way, name) ← readKey
  Reader.expect ']'
  if isElement then
    Reader.expect ']'
    Reader.ofOption "table defined twice"
      (draft.startElement? way name)
  else
    Reader.ofOption "table defined twice"
      (draft.startTable? way name)

/- Read a key and its value. -/
def readSetting
    (draft : Draft) : Reader Draft := do
  let (way, name) ← readKey
  Reader.expect '='
  blanks
  let bound := 2 * (← get).length + 2
  let value ← readValue bound (maxDepth - 1)
  Reader.ofOption "key set twice" (draft.set? way name value)

/- Read one line of a document, or more for long values. -/
def readStatement
    (draft : Draft) : Reader Draft := do
  blanks
  match ← Reader.peek? with
  | none => return draft
  | some '\n' => endLine; return draft
  | some '#' => endLine; return draft
  | some '[' =>
      Reader.expect '['
      let draft ← readHeader draft
      endLine
      return draft
  | some _ =>
      let draft ← readSetting draft
      endLine
      return draft

/-
  Read statements up to the end of the document. Each takes
  at least one character, so the number of characters is a
  bound on the number of statements.
-/
def readStatements : Nat → Draft → Reader Draft
  | 0, draft => return draft
  | bound + 1, draft => do
      match ← Reader.peek? with
      | none => return draft
      | some _ => readStatements bound (← readStatement draft)

end Toml

end HierPath

------------------------------------------------------------
-- Documents
------------------------------------------------------------

namespace HierPath

namespace Toml

/- Why a document cannot be read, and in which line. -/
structure SyntaxError where
  line : Nat
  problem : String
deriving DecidableEq

namespace SyntaxError

/- The one line that tells a user what went wrong. -/
def message
    (e : SyntaxError) : String :=
  s!"line {e.line}: {e.problem}"

/- Find the line at which so many characters are left. -/
def ofFault
    (chars : List Char)
    (fault : Fault) : SyntaxError :=
  let before := chars.take (chars.length - fault.left)
  ⟨before.count '\n' + 1, fault.problem⟩

end SyntaxError

/- Leave out a byte order mark at the start. -/
def dropMark : List Char → List Char
  | '\ufeff' :: rest => rest
  | chars => chars

/- The fields of a document. -/
def parse
    (content : String) : Except SyntaxError Fields :=
  let chars := unifyLines (dropMark content.toList)
  let reading := readStatements chars.length .empty
  match reading.run chars with
  | .error fault => .error (.ofFault chars fault)
  | .ok (draft, _) =>
      match draft.finish? with
      | some fields => .ok fields
      | none => .error (.ofFault chars ⟨0, "table defined twice"⟩)

end Toml

end HierPath
