/-
  Blank characters and trimming.

  The blank characters are those with the White_Space
  property of Unicode, twenty-five in all.

  Key definitions include:
    * `Text.isBlank`
    * `Text.trim`
    * `Text.lines`
-/

------------------------------------------------------------
-- Blank Characters
------------------------------------------------------------

namespace HierPath

namespace Text

/-
  The blank characters by code point, as ranges with both
  ends included.
-/
def blankRanges : List (Nat × Nat) :=
  [(0x09, 0x0d), (0x20, 0x20), (0x85, 0x85), (0xa0, 0xa0),
    (0x1680, 0x1680), (0x2000, 0x200a), (0x2028, 0x2029),
    (0x202f, 0x202f), (0x205f, 0x205f), (0x3000, 0x3000)]

/- The character leaves a blank in a line. -/
def isBlank
    (c : Char) : Bool :=
  blankRanges.any fun range =>
    range.1 ≤ c.toNat && c.toNat ≤ range.2

/- What is left without the blanks at both ends. -/
def trim
    (chars : List Char) : List Char :=
  ((chars.dropWhile isBlank).reverse.dropWhile isBlank).reverse

/- Put one character in front of the lines of a text. -/
def putLine
    (c : Char)
    (lines : List (List Char)) : List (List Char) :=
  if c = '\n' then
    [] :: lines
  else
    match lines with
    | [] => [[c]]
    | line :: rest => (c :: line) :: rest

/-
  The lines of a text, cut at line feeds, which they do not
  hold. A text that ends in a line feed has an empty last
  line. A carriage return at the end of a line stays with
  the line; it is a blank, so trimming takes it off.
-/
def lines
    (chars : List Char) : List (List Char) :=
  chars.foldr putLine [[]]

end Text

end HierPath
