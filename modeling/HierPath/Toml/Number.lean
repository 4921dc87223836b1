/-
  Numbers and moments in TOML.

  A bare word is a number or a moment as a whole or not at
  all. Between two digits of a number there may be an
  underscore. Integers have to fit in 64 bits with a sign.
  A decimal number must not round to positive infinity as a
  number of double precision.

  Key definitions include:
    * `Toml.ungroup`
    * `Toml.integer?`
    * `Toml.roundsToInfinity`
    * `Toml.isDecimal`
    * `Toml.isMoment`
-/

------------------------------------------------------------
-- Integers
------------------------------------------------------------

namespace HierPath

namespace Toml

/-
  The digits of a word without the underscores between
  them. Every underscore needs a digit on both sides.
-/
def ungroup
    (isDigit : Char → Bool) : List Char → Option (List Char)
  | [] => none
  | [c] => if isDigit c then some [c] else none
  | c :: '_' :: rest =>
      if isDigit c then
        (ungroup isDigit rest).map (c :: ·)
      else
        none
  | c :: rest =>
      if isDigit c then
        (ungroup isDigit rest).map (c :: ·)
      else
        none

/- The value of a digit, letters included. -/
def digitValue
    (c : Char) : Nat :=
  if c.isDigit then
    c.toNat - '0'.toNat
  else
    c.toLower.toNat - 'a'.toNat + 10

/- The value of digits, the first of them the highest. -/
def digitsValue
    (base : Nat)
    (digits : List Char) : Nat :=
  digits.foldl (fun value c => base * value + digitValue c) 0

/- The digits of a base that is marked by a letter. -/
def isDigitOf
    (base : Nat)
    (c : Char) : Bool :=
  (c.isDigit || c.isAlpha) && digitValue c < base

/- The base that follows a zero and a letter. -/
def base? : Char → Option Nat
  | 'x' => some 16
  | 'o' => some 8
  | 'b' => some 2
  | _ => none

/- The sign of a word, as a factor, and the word after it. -/
def takeSign : List Char → Int × List Char
  | '+' :: rest => (1, rest)
  | '-' :: rest => (-1, rest)
  | word => (1, word)

/- Decimal digits without a needless zero in front. -/
def wholeDigits?
    (word : List Char) : Option (List Char) := do
  let digits ← ungroup Char.isDigit word
  match digits with
  | '0' :: _ :: _ => none
  | _ => some digits

/- The value is that of a signed integer of 64 bits. -/
def fits
    (value : Int) : Bool :=
  -9223372036854775808 ≤ value
    && value ≤ 9223372036854775807

/- The integer that a word stands for. -/
def integer?
    (word : List Char) : Option Int := do
  let value : Int ←
    match word with
    | '0' :: mark :: digits =>
        match base? mark with
        | some base => do
            let digits ← ungroup (isDigitOf base) digits
            pure (digitsValue base digits : Int)
        | none => none
    | _ => do
        let (sign, word) := takeSign word
        let digits ← wholeDigits? word
        pure (sign * digitsValue 10 digits)
  if fits value then some value else none

end Toml

end HierPath

------------------------------------------------------------
-- Decimal Numbers
------------------------------------------------------------

namespace HierPath

namespace Toml

/-
  The number `digits * 10 ^ scale` is at least as large as
  the midpoint between the largest number of double
  precision and the next power of two, so it rounds to
  infinity. Very large and very small scales are decided by
  the number of digits alone.
-/
def roundsToInfinity
    (digits : List Char)
    (scale : Int) : Bool :=
  let digits := digits.dropWhile (· = '0')
  let size : Int := digits.length + scale
  let value := digitsValue 10 digits
  let midpoint := Nat.pow 2 1024 - Nat.pow 2 970
  if digits.isEmpty || size < 308 then
    false
  else if size > 310 then
    true
  else if 0 ≤ scale then
    midpoint ≤ value * Nat.pow 10 scale.toNat
  else
    midpoint * Nat.pow 10 (-scale).toNat ≤ value

/- Cut a word at the first character of a kind, if any. -/
def cutAt
    (kind : Char → Bool)
    (word : List Char) : List Char × Option (List Char) :=
  match word.span (fun c => !kind c) with
  | (front, []) => (front, none)
  | (front, _ :: rest) => (front, some rest)

/- The exponent that a word stands for. -/
def exponent?
    (word : List Char) : Option Int := do
  let (sign, word) := takeSign word
  let digits ← ungroup Char.isDigit word
  return sign * digitsValue 10 digits

/-
  The unsigned part of a decimal number: its digits, and
  the power of ten that they are multiplied with. It has a
  fraction, or an exponent, or both.
-/
def fraction?
    (word : List Char) : Option (List Char × Int) := do
  let (front, power) := cutAt (fun c => c = 'e' || c = 'E') word
  let (whole, fraction) := cutAt (· = '.') front
  let whole ← wholeDigits? whole
  match fraction, power with
  | none, none => none
  | none, some power => do
      return (whole, ← exponent? power)
  | some fraction, none => do
      let fraction ← ungroup Char.isDigit fraction
      return (whole ++ fraction, -fraction.length)
  | some fraction, some power => do
      let fraction ← ungroup Char.isDigit fraction
      let power ← exponent? power
      return (whole ++ fraction, power - fraction.length)

/- The word stands for a number that is no integer. -/
def isDecimal
    (word : List Char) : Bool :=
  let (sign, word) := takeSign word
  if word = ['i', 'n', 'f'] || word = ['n', 'a', 'n'] then
    true
  else
    match fraction? word with
    | none => false
    | some (digits, scale) =>
        sign < 0 || !roundsToInfinity digits scale

end Toml

end HierPath

------------------------------------------------------------
-- Moments
------------------------------------------------------------

namespace HierPath

namespace Toml

/-
  A number of two digits in a range, and what follows it.
-/
def takePair?
    (low high : Nat) : List Char → Option (Nat × List Char)
  | a :: b :: rest =>
      let value := digitsValue 10 [a, b]
      if a.isDigit && b.isDigit
          && low ≤ value && value ≤ high then
        some (value, rest)
      else
        none
  | _ => none

/- What follows a character that has to be the next one. -/
def drop?
    (c : Char) : List Char → Option (List Char)
  | [] => none
  | d :: rest => if d = c then some rest else none

/- The year has a day more than others. -/
def isLeap
    (year : Nat) : Bool :=
  year % 4 = 0 && (year % 100 ≠ 0 || year % 400 = 0)

/- The number of days of a month. -/
def daysOf
    (year month : Nat) : Nat :=
  if month = 2 then
    if isLeap year then 29 else 28
  else if month ∈ [4, 6, 9, 11] then
    30
  else
    31

/- What follows a date. -/
def afterDate?
    (word : List Char) : Option (List Char) := do
  let (century, rest) ← takePair? 0 99 word
  let (year, rest) ← takePair? 0 99 rest
  let (month, rest) ← takePair? 1 12 (← drop? '-' rest)
  let (day, rest) ← takePair? 1 31 (← drop? '-' rest)
  if day ≤ daysOf (100 * century + year) month then
    some rest
  else
    none

/- What follows a time of day. -/
def afterTime?
    (word : List Char) : Option (List Char) := do
  let (_, rest) ← takePair? 0 23 word
  let (_, rest) ← takePair? 0 59 (← drop? ':' rest)
  let (_, rest) ← takePair? 0 60 (← drop? ':' rest)
  match rest with
  | '.' :: c :: rest =>
      if c.isDigit then
        some (rest.dropWhile Char.isDigit)
      else
        none
  | _ => some rest

/- The word is a distance from universal time, or nothing. -/
def isOffset : List Char → Bool
  | [] => true
  | ['Z'] => true
  | ['z'] => true
  | c :: rest =>
      (c = '+' || c = '-') &&
        match takePair? 0 23 rest with
        | some (_, ':' :: rest) =>
            match takePair? 0 59 rest with
            | some (_, []) => true
            | _ => false
        | _ => false

/- The word is a time of day with or without an offset. -/
def isTimeWithOffset
    (word : List Char) : Bool :=
  (afterTime? word).any isOffset

/- The word is a date, and nothing else. -/
def isDate
    (word : List Char) : Bool :=
  afterDate? word = some []

/-
  The word is a date, a time of day, or both with a letter
  between them.
-/
def isMoment
    (word : List Char) : Bool :=
  match afterDate? word with
  | some [] => true
  | some (c :: rest) =>
      (c = 'T' || c = 't') && isTimeWithOffset rest
  | none => afterTime? word = some []

end Toml

end HierPath
