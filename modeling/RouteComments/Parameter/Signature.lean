import RouteComments.Text.Word

set_option autoImplicit false

namespace RouteComments.Signature

open Text

def accessModifiers : List Text :=
  ["public".toList, "private".toList, "protected".toList]

/-- Whether a line holds an access modifier as a word of its own. -/
def hasAccessModifier (line : Text) : Bool :=
  (firstAtWord? (fun text => accessModifiers.findSome? (wholeWord? · text)) false line).isSome

/-- The lines up to the first that holds an opening brace at or behind an access modifier; `seen` says
whether a modifier stood before. -/
def linesFrom (seen : Bool) : List Text → List Text
  | [] => []
  | line :: rest =>
    let seen := seen || hasAccessModifier line
    if seen && line.contains '{' then [line] else line :: linesFrom seen rest

def span (lines : List Text) (start : Nat) : Text :=
  joinWith ['\n'] (linesFrom false (lines.drop start))

end RouteComments.Signature
