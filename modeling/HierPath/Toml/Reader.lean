/-
  Reading TOML from characters: what a reader is, and the
  layout between the values of a document.

  A reader takes characters from the front of those that
  are left, or fails with the number of characters that
  were left at that point. A line ends in a line feed; the
  pair of carriage return and line feed is turned into one
  before reading, and a lone carriage return is never part
  of a document.

  Key definitions include:
    * `Toml.Fault`
    * `Toml.Reader`
    * `Toml.unifyLines`
    * `Toml.afterLayout`
    * `Toml.blanks`
    * `Toml.endLine`
-/

------------------------------------------------------------
-- Readers
------------------------------------------------------------

namespace HierPath

namespace Toml

/-
  Why reading has stopped, and how many characters were
  left when it did.
-/
structure Fault where
  left : Nat
  problem : String
deriving DecidableEq

/- A reader of characters. -/
abbrev Reader :=
  StateT (List Char) (Except Fault)

namespace Reader

/- Stop reading at this point. -/
def fail
    {α : Type}
    (problem : String) : Reader α :=
  fun chars => .error ⟨chars.length, problem⟩

/- The answer of a rule that may have none. -/
def ofOption
    {α : Type}
    (problem : String) : Option α → Reader α
  | some a => pure a
  | none => fail problem

/- The next character, which is left where it is. -/
def peek? : Reader (Option Char) :=
  fun chars => .ok (chars.head?, chars)

/- Take all characters up to the first that is not of a kind. -/
def takeWhile
    (kind : Char → Bool) : Reader (List Char) :=
  fun chars => .ok (chars.span kind)

/- Take a character if it is the next one. -/
def take?
    (c : Char) : Reader Bool :=
  fun chars =>
    match chars with
    | [] => .ok (false, [])
    | d :: rest =>
        if d = c then .ok (true, rest) else .ok (false, chars)

/- Take a character that has to be the next one. -/
def expect
    (c : Char) : Reader Unit := do
  if !(← take? c) then
    fail s!"expected `{c}`"

end Reader

end Toml

end HierPath

------------------------------------------------------------
-- Layout
------------------------------------------------------------

namespace HierPath

namespace Toml

/- Turn each carriage return before a line feed into it. -/
def unifyLines : List Char → List Char
  | '\r' :: '\n' :: rest => '\n' :: unifyLines rest
  | c :: rest => c :: unifyLines rest
  | [] => []

/- Blanks within a line. -/
def isBlank
    (c : Char) : Bool :=
  c = ' ' || c = '\t'

/- Characters that may stand in comments and texts. -/
def isPrintable
    (c : Char) : Bool :=
  c = '\t' || (0x20 ≤ c.toNat && c.toNat ≠ 0x7f)

/-
  What follows the blanks, line ends and comments in front.
  A comment goes to the end of its line, and a character
  that it may not hold ends the layout.
-/
def afterLayout : Bool → List Char → List Char
  | _, [] => []
  | inComment, c :: rest =>
      if c = '\n' then
        afterLayout false rest
      else if inComment then
        if isPrintable c then afterLayout true rest else c :: rest
      else if c = '#' then
        afterLayout true rest
      else if isBlank c then
        afterLayout false rest
      else
        c :: rest

/- Pass over blanks, line ends and comments. -/
def layout : Reader Unit :=
  modify (afterLayout false)

/- Pass over blanks. -/
def blanks : Reader Unit := do
  let _ ← Reader.takeWhile isBlank

/- Pass over a comment, if there is one. -/
def comment : Reader Unit := do
  if ← Reader.take? '#' then
    let _ ← Reader.takeWhile isPrintable

/-
  Pass over the end of a line: blanks, a comment, and the
  line feed, unless the document ends there.
-/
def endLine : Reader Unit := do
  blanks
  comment
  match ← Reader.peek? with
  | none => return
  | some _ =>
      if !(← Reader.take? '\n') then
        Reader.fail "expected the end of the line"

end Toml

end HierPath
