/-!
Text for a terminal. Each character has a style; where colours are not wanted the styles are dropped.
-/

namespace WorkflowAudit.Render

/-- How a character is shown. -/
inductive Style where
  | plain
  /-- What is said. -/
  | heading
  /-- What it is about. -/
  | warning
  /-- The frame around a piece of source text. -/
  | frame
  deriving DecidableEq, Repr

/-- The code that turns a style on. -/
def Style.code : Style → String
  | .plain => ""
  | .heading => "\x1b[1m"
  | .warning => "\x1b[1m\x1b[33m"
  | .frame => "\x1b[1m\x1b[94m"

/-- The code that turns all styles off. -/
def resetCode : String := "\x1b[0m"

/-- A line of characters with their styles. -/
abbrev StyledLine := List (Char × Style)

namespace StyledLine

/-- A text in one style. -/
def ofText (style : Style) (text : List Char) : StyledLine :=
  text.map (·, style)

/-- Spaces. -/
def spaces (n : Nat) : StyledLine :=
  List.replicate n (' ', .plain)

/-- A line with a text put in place of the characters from a column on. -/
def put (line : StyledLine) (column : Nat) (text : StyledLine) : StyledLine :=
  if text.isEmpty then line
  else line.take column ++ spaces (column - line.length) ++ text ++
    line.drop (column + text.length)

/-- The text with codes wherever the style changes, `current` being the style before it. -/
def coloured (current : Style) : StyledLine → String
  | [] => if current = .plain then "" else resetCode
  | (c, style) :: rest =>
    let change :=
      if style = current then ""
      else (if current = .plain then "" else resetCode) ++ style.code
    change ++ String.singleton c ++ coloured style rest

/-- The text of a line. -/
def text (colours : Bool) (line : StyledLine) : String :=
  if colours then coloured .plain line else String.ofList (line.map (·.1))

end StyledLine

/-- A text in green where colours are wanted. -/
def green (colours : Bool) (text : String) : String :=
  if colours then "\x1b[32m" ++ text ++ "\x1b[39m" else text

end WorkflowAudit.Render
