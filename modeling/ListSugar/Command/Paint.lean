/-
Coloured text for a terminal.

A colour is switched on by one sequence and everything is switched off by another.
Where a text to be painted itself switches everything off, the colour is switched on
again behind it.
-/

namespace ListSugar.Command

/-- The colours of the reports. -/
inductive Color where
  | red
  | green
  | yellow
  | cyan
deriving DecidableEq, Repr

namespace Color

/-- The number of a foreground colour. -/
def code : Color → String
  | .red => "31"
  | .green => "32"
  | .yellow => "33"
  | .cyan => "36"

/-- The sequence that switches a colour on. -/
def on (c : Color) : String := "\x1b[" ++ c.code ++ "m"

end Color

/-- The sequence that switches all colours off. -/
def colorsOff : String := "\x1b[0m"

/-- The text with `style` after every sequence that switches all colours off. -/
def restyle (style : List Char) : List Char → List Char
  | '\x1b' :: '[' :: '0' :: 'm' :: rest =>
    '\x1b' :: '[' :: '0' :: 'm' :: (style ++ restyle style rest)
  | c :: rest => c :: restyle style rest
  | [] => []

/-- How texts are shown: in colour or plainly. -/
structure Style where
  colored : Bool
deriving DecidableEq, Repr

namespace Style

/-- A text in the given colour, if colours are shown. -/
def paint (s : Style) (c : Color) (text : String) : String :=
  if s.colored then c.on ++ String.ofList (restyle c.on.toList text.toList) ++ colorsOff
  else text

/-- Whether a switch in the environment is on: any value but zero is. -/
def isOn (value : String) : Bool := value != "0"

/-- The style that the environment asks for: colours can be forced, then forbidden, and
are otherwise shown on a terminal unless switched off. -/
def ofEnvironment (forced forbidden wanted : Option String) (terminal : Bool) : Style :=
  if (forced.map isOn).getD false then ⟨true⟩
  else if (forbidden.map isOn).getD false then ⟨false⟩
  else ⟨(wanted.map isOn).getD true && terminal⟩

end Style

end ListSugar.Command
