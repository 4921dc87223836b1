/-
  Colors of terminal output.

  A style is a list of codes. Styled text stands between a
  sequence that turns the style on and one that turns all
  styles off. Where the text itself turns all styles off,
  its own style is turned on again.

  Key definitions include:
    * `Style`
    * `Style.start`
    * `Style.resume`
    * `Style.paint`
-/

------------------------------------------------------------
-- Styles
------------------------------------------------------------

namespace HierPath

/- The codes that a terminal knows a style by. -/
structure Style where
  codes : List Nat
deriving DecidableEq

namespace Style

/- The style of what has failed. -/
def red : Style :=
  ⟨[31]⟩

/- The style of what has gone well. -/
def green : Style :=
  ⟨[32]⟩

/- The style of what is asked about. -/
def cyan : Style :=
  ⟨[36]⟩

/- The style of what matters less. -/
def dim : Style :=
  ⟨[2]⟩

/- The style of what matters most. -/
def boldGreen : Style :=
  ⟨[1, 32]⟩

/- The sequence that turns a style on. -/
def start
    (style : Style) : String :=
  let codes := ";".intercalate (style.codes.map toString)
  s!"\x1b[{codes}m"

/- The sequence that turns all styles off. -/
def stop : String :=
  "\x1b[0m"

/- Turn a style on again after each end of all styles. -/
def resume
    (start : List Char) : List Char → List Char
  | '\x1b' :: '[' :: '0' :: 'm' :: rest =>
      '\x1b' :: '[' :: '0' :: 'm' :: (start ++ resume start rest)
  | c :: rest => c :: resume start rest
  | [] => []

/- Text in a style, if styles are wanted. -/
def paint
    (style : Style)
    (wanted : Bool)
    (text : String) : String :=
  if wanted then
    let inner := resume style.start.toList text.toList
    style.start ++ String.ofList inner ++ stop
  else
    text

end Style

end HierPath
