import RouteComments.Proofs.Readers

set_option autoImplicit false

namespace RouteComments.Mapping

open Text Java

/-- The first mapping of a text at an offset, with the text behind it and its offset. -/
def firstMapping? (offset : Nat) : Text → Option (Occurrence × Nat × Text)
  | [] => none
  | c :: cs =>
    match mapping? (c :: cs) with
    | some ((kind, args), rest) => some ({ kind, args, offset }, offset + bytes (upTo (c :: cs) rest), rest)
    | none => firstMapping? (offset + c.utf8Size) cs

theorem length_of_firstMapping? {offset next : Nat} {text rest : Text} {occurrence : Occurrence}
    (first : firstMapping? offset text = some (occurrence, next, rest)) : rest.length < text.length := by
  induction text generalizing offset with
  | nil => cases first
  | cons c cs ih =>
    rw [firstMapping?] at first
    split at first
    · rename_i kind args behind success
      cases first
      obtain ⟨tail, shape, _, suffix⟩ := mapping?_spec success
      cases shape
      exact Nat.lt_succ_of_le suffix.length_le
    · exact Nat.lt_succ_of_lt (ih first)

/-- A scan in progress: the text that is left and its offset, and where the type is declared. -/
structure Scanner where
  left : Text
  offset : Nat
  declaration : Option Nat
  deriving DecidableEq, Repr

namespace Scanner

def ofText (text : Text) : Scanner :=
  { left := text, offset := 0, declaration := typeDeclarationOffset text }

/-- The next mapping of a method and the scanner behind it; mappings of the class are passed over. -/
def next? (scanner : Scanner) : Option (Occurrence × Scanner) :=
  match _first : firstMapping? scanner.offset scanner.left with
  | none => none
  | some (occurrence, offset, left) =>
    if occurrence.isClassLevel scanner.declaration then next? { scanner with left, offset }
    else some (occurrence, { scanner with left, offset })
termination_by scanner.left.length
decreasing_by exact length_of_firstMapping? _first

theorem length_of_next? {scanner onward : Scanner} {occurrence : Occurrence}
    (stepped : scanner.next? = some (occurrence, onward)) : onward.left.length < scanner.left.length := by
  fun_induction next? scanner with
  | case1 => cases stepped
  | case2 scanner passed offset left first isClass ih =>
    exact Nat.lt_trans (ih stepped) (length_of_firstMapping? first)
  | case3 scanner given offset left first isMethod =>
    cases stepped
    exact length_of_firstMapping? first

/-- All mappings that a scanner gives, one step after another. -/
def all (scanner : Scanner) : List Occurrence :=
  match _step : scanner.next? with
  | none => []
  | some (occurrence, onward) => occurrence :: onward.all
termination_by scanner.left.length
decreasing_by exact length_of_next? _step

end Scanner

/-- The base path after a walk over mappings: each generic one replaces it, up to the first that does not stand before
the declaration. -/
def basePathBefore (declaration : Nat) (base : Text) : List Occurrence → Text
  | [] => base
  | occurrence :: rest =>
    if declaration ≤ occurrence.offset then base
    else basePathBefore declaration (if occurrence.kind = .generic then occurrence.paths.headD [] else base) rest

end RouteComments.Mapping
