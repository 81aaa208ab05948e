import RouteComments.Text.Basic

set_option autoImplicit false

namespace RouteComments

open Text

/-- The colours in use. -/
inductive Color where
  | red
  | green
  | yellow
  | blue
  | cyan
  deriving DecidableEq, Repr

/-- How a piece of text is shown. -/
structure Style where
  bold : Bool := false
  dimmed : Bool := false
  underline : Bool := false
  color : Option Color := none
  deriving DecidableEq, Repr

namespace Style

def colorCode : Color → Text
  | .red => "31".toList
  | .green => "32".toList
  | .yellow => "33".toList
  | .blue => "34".toList
  | .cyan => "36".toList

def codes (style : Style) : List Text :=
  (if style.bold then [['1']] else []) ++ (if style.dimmed then [['2']] else []) ++
    (if style.underline then [['4']] else []) ++ (style.color.map colorCode).toList

/-- The sequence that switches a style on. -/
def start (style : Style) : Text :=
  "\x1b[".toList ++ joinWith [';'] style.codes ++ ['m']

/-- The sequence that switches every style off. -/
def reset : Text :=
  "\x1b[0m".toList

def afterResets (inserted : Text) : Text → Text
  | '\x1b' :: '[' :: '0' :: 'm' :: rest => reset ++ inserted ++ afterResets inserted rest
  | c :: cs => c :: afterResets inserted cs
  | [] => []

/-- A text in a style, if styles are on. The style goes on behind a reset inside the text. -/
def paint (enabled : Bool) (style : Style) (text : Text) : Text :=
  if enabled then style.start ++ afterResets style.start text ++ reset else text

def plain (color : Color) : Style :=
  { color := some color }

/-- Bold colour. -/
def strong (color : Color) : Style :=
  { bold := true, color := some color }

end Style

end RouteComments
