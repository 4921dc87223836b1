import HierPath.Toml.Reader

/-
  Texts in TOML, between quotes.

  A text between double quotes may hold escapes, one
  between single quotes is taken as it is. Three quotes
  instead of one let a text go over several lines; a line
  feed right after them is not part of the text. Up to two
  quotes may stand alone in such a text, also right before
  the three that close it.

  Key definitions include:
    * `Toml.closeQuotes?`
    * `Toml.Mode`
    * `Toml.basicText`
    * `Toml.plainText`
    * `Toml.quotedText`
-/

------------------------------------------------------------
-- Quotes
------------------------------------------------------------

namespace HierPath

namespace Toml

/-
  Whether the quotes in front close a text. If so, the
  answer has the quotes that still belong to the text and
  what follows the closing quotes.
-/
def closeQuotes?
    (multi : Bool)
    (quote : Char)
    (chars : List Char) : Option (List Char × List Char) :=
  let quotes := chars.takeWhile (· = quote)
  if !multi then
    some ([], chars.drop 1)
  else if quotes.length < 3 then
    none
  else
    let inner := min (quotes.length - 3) 2
    some (quotes.take inner, chars.drop (inner + 3))

end Toml

end HierPath

------------------------------------------------------------
-- Texts With Escapes
------------------------------------------------------------

namespace HierPath

namespace Toml

/- The character that an escape of one letter stands for. -/
def escaped? : Char → Option Char
  | 'b' => some '\x08'
  | 't' => some '\t'
  | 'n' => some '\n'
  | 'f' => some '\x0c'
  | 'r' => some '\r'
  | '"' => some '"'
  | '\\' => some '\\'
  | _ => none

/- The value of a hexadecimal digit. -/
def hexValue?
    (c : Char) : Option Nat :=
  if c.isDigit then
    some (c.toNat - '0'.toNat)
  else if 'a' ≤ c ∧ c ≤ 'f' then
    some (c.toNat - 'a'.toNat + 10)
  else if 'A' ≤ c ∧ c ≤ 'F' then
    some (c.toNat - 'A'.toNat + 10)
  else
    none

/- The character of a code point, if there is one. -/
def character?
    (code : Nat) : Option Char :=
  if code.isValidChar then some (Char.ofNat code) else none

/-
  Where the reader of a text with escapes stands: at plain
  characters, after an escape mark, in the digits of a code
  point, between an escape mark and the end of its line, or
  in the layout after such an end.
-/
inductive Mode where
  | plain
  | escape
  | code (digits value : Nat)
  | breaking
  | skipping
deriving DecidableEq

/- The mode after one character of an escape. -/
def escapeStep
    (multi : Bool)
    (c : Char) : Option (Mode × Option Char) :=
  match escaped? c with
  | some d => some (.plain, some d)
  | none =>
      if c = 'u' then
        some (.code 4 0, none)
      else if c = 'U' then
        some (.code 8 0, none)
      else if multi && c = '\n' then
        some (.skipping, none)
      else if multi && isBlank c then
        some (.breaking, none)
      else
        none

/- The mode after one more digit of a code point. -/
def codeStep
    (digits value : Nat)
    (c : Char) : Option (Mode × Option Char) := do
  let digit ← hexValue? c
  let value := 16 * value + digit
  if digits ≤ 1 then
    return (.plain, some (← character? value))
  else
    return (.code (digits - 1) value, none)

/-
  Read a text with escapes up to its closing quotes. The
  characters read so far are kept last first.
-/
def basicText
    (multi : Bool) :
    Mode → List Char → List Char →
      Except Fault (List Char × List Char)
  | _, _, [] => .error ⟨0, "text without an end"⟩
  | mode, text, c :: rest =>
      let fault : Except Fault (List Char × List Char) :=
        .error ⟨rest.length + 1, "character out of place in a text"⟩
      let go : Mode × Option Char →
          Except Fault (List Char × List Char)
        | (mode, added) =>
            basicText multi mode (added.toList ++ text) rest
      match mode with
      | .escape => ((escapeStep multi c).map go).getD fault
      | .code digits value =>
          ((codeStep digits value c).map go).getD fault
      | .breaking =>
          if c = '\n' then
            go (.skipping, none)
          else if isBlank c then
            go (.breaking, none)
          else
            fault
      | _ =>
          if mode = .skipping && (isBlank c || c = '\n') then
            go (.skipping, none)
          else if c = '\\' then
            go (.escape, none)
          else if c = '"' then
            match closeQuotes? multi '"' (c :: rest) with
            | some (quotes, after) =>
                .ok ((quotes ++ text).reverse, after)
            | none => go (.plain, some c)
          else if isPrintable c || (multi && c = '\n') then
            go (.plain, some c)
          else
            fault

end Toml

end HierPath

------------------------------------------------------------
-- Texts Without Escapes
------------------------------------------------------------

namespace HierPath

namespace Toml

/-
  Read a text without escapes up to its closing quotes. The
  characters read so far are kept last first.
-/
def plainText
    (multi : Bool) :
    List Char → List Char →
      Except Fault (List Char × List Char)
  | _, [] => .error ⟨0, "text without an end"⟩
  | text, c :: rest =>
      if c = '\'' then
        match closeQuotes? multi '\'' (c :: rest) with
        | some (quotes, after) =>
            .ok ((quotes ++ text).reverse, after)
        | none => plainText multi (c :: text) rest
      else if isPrintable c || (multi && c = '\n') then
        plainText multi (c :: text) rest
      else
        .error ⟨rest.length + 1, "character out of place in a text"⟩

end Toml

end HierPath

------------------------------------------------------------
-- Quoted Texts
------------------------------------------------------------

namespace HierPath

namespace Toml

/- Read what follows the opening quotes of a text. -/
def textBody
    (multi : Bool)
    (quote : Char) : Reader String :=
  fun chars => do
    let (text, rest) ←
      if quote = '"' then
        basicText multi .plain [] chars
      else
        plainText multi [] chars
    return (String.ofList text, rest)

/- Read a text between single quotes of a given character. -/
def quotedLine
    (quote : Char) : Reader String := do
  Reader.expect quote
  textBody false quote

/- Read a text between one or three quotes of a character. -/
def quotedText
    (quote : Char) : Reader String := do
  let chars ← get
  if [quote, quote, quote].isPrefixOf chars then
    set (chars.drop 3)
    let _ ← Reader.take? '\n'
    textBody true quote
  else
    quotedLine quote

end Toml

end HierPath
