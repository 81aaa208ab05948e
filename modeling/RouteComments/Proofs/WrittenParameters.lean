import RouteComments.Proofs.Searches

set_option autoImplicit false

namespace RouteComments.Binding

open Text Java

/-- Where the arguments of an annotation give a name: alone, behind `name` or behind `value`. -/
inductive NameKey where
  | alone
  | name
  | value
  deriving DecidableEq, Repr

/-- What stands before the literal of the name. -/
def NameKey.text : NameKey → Text
  | .alone => []
  | .name => "name = ".toList
  | .value => "value = ".toList

structure GivenName where
  key : NameKey
  name : Text
  filled : name ≠ []
  plain : ∀ c ∈ name, c ≠ '"' ∧ c ≠ '(' ∧ c ≠ ')' ∧ c ≠ '@' ∧ isBlank c = false

def GivenName.args (given : GivenName) : Text :=
  given.key.text ++ quote given.name

def argumentsText : Option Text → Text
  | some args => '(' :: (args ++ [')'])
  | none => []

/-- An annotation as it is written, with the space behind it. -/
def annotationText (name : Text) (args : Option Text) : Text :=
  '@' :: (name ++ (argumentsText args ++ [' ']))

inductive Binder where
  | pathVariable
  | requestParam
  deriving DecidableEq, Repr

def Binder.marker : Binder → Text
  | .pathVariable => "PathVariable".toList
  | .requestParam => "RequestParam".toList

/-- An annotation between the one that binds a parameter and its declaration. -/
structure Nested where
  name : Text
  args : Option Text
  filled : name ≠ []
  word : ∀ c ∈ name, isWord c = true
  unbound : ∀ binder : Binder, name ≠ binder.marker
  enclosed : ∀ text ∈ args, '(' ∉ text ∧ ')' ∉ text ∧ '@' ∉ text

def Nested.text (nested : Nested) : Text :=
  annotationText nested.name nested.args

/-- A declared type: a name, type arguments in which every closing angle bracket stands before a comma or another
one, and array brackets. -/
structure WrittenType where
  name : Text
  arguments : Option Text
  isArray : Bool
  filled : name ≠ []
  inName : ∀ c ∈ name, isWord c = true ∨ c = '.' ∨ c = '$'
  notFinal : name ≠ "final".toList
  enclosed : ∀ text ∈ arguments, '(' ∉ text ∧ ')' ∉ text ∧ '@' ∉ text
  closings : ∀ text ∈ arguments, ∀ n < text.length, text[n]? = some '>' →
    (text ++ ['>'])[n + 1]? = some ',' ∨ (text ++ ['>'])[n + 1]? = some '>'

/-- What stands behind the name of a type. -/
def WrittenType.extension (type : WrittenType) : Text :=
  (match type.arguments with
    | some inner => '<' :: (inner ++ ['>'])
    | none => []) ++ if type.isArray then "[]".toList else []

def WrittenType.text (type : WrittenType) : Text :=
  type.name ++ type.extension

/-- An identifier is a word that is not empty. -/
structure IsIdentifier (text : Text) : Prop where
  filled : text ≠ []
  word : ∀ c ∈ text, isWord c = true

structure Written where
  binder : Binder
  given : Option GivenName
  nested : List Nested
  isFinal : Bool
  type : WrittenType
  identifier : Text
  valid : IsIdentifier identifier

namespace Written

/-- The declaration of a parameter behind its annotations. -/
def declaration (parameter : Written) : Text :=
  (if parameter.isFinal then "final ".toList else []) ++
    (parameter.type.text ++ ' ' :: parameter.identifier)

def text (parameter : Written) : Text :=
  annotationText parameter.binder.marker (parameter.given.map (·.args)) ++
    (parameter.nested.flatMap (·.text) ++ parameter.declaration)

/-- The name under which a parameter is bound: the given one, or its identifier. -/
def name (parameter : Written) : Text :=
  (parameter.given.map (·.name)).getD parameter.identifier

/-- What a reader takes from a parameter. -/
def declared (parameter : Written) : Declared where
  args := parameter.given.map (·.args)
  type := parameter.type.text
  identifier := parameter.identifier

end Written

section Names

variable (given : GivenName)

theorem GivenName.unquoted : '"' ∉ given.name :=
  fun member => (given.plain '"' member).1 rfl

theorem GivenName.trim_name : trim given.name = given.name := by
  have solid : ∀ c ∈ given.name, isBlank c = false := fun c member => (given.plain c member).2.2.2.2
  have trimmed : dropAround isBlank ([] ++ (given.name ++ [])) = given.name :=
    dropAround_append (by simp) (by simp) (fun c first => solid c (List.mem_of_head? first))
      (fun c last => solid c (List.mem_of_getLast? last))
  rwa [List.append_nil, List.nil_append] at trimmed

theorem firstAtWord?_keyedLiteral?_eq_none {key text : Text} {inside : Bool} (few : text.count '"' < 2) :
    firstAtWord? (keyedLiteral? key) inside text = none := by
  rw [Option.eq_none_iff_forall_ne_some]
  intro inner found
  obtain ⟨back, suffix, read⟩ := exists_suffix_of_firstAtWord? found
  obtain ⟨front, rest, -, rfl⟩ := keyedLiteral?_spec read
  have quotes := suffix.sublist.count_le '"'
  simp only [List.count_append, count_quote] at quotes
  omega

theorem firstAtWord?_keyedLiteral?_of_key {key : Text} (name : Text) (unquoted : '"' ∉ name) :
    firstAtWord? (keyedLiteral? key) false (key ++ (" ".toList ++ '=' :: (" ".toList ++ quote name))) = some name := by
  have blank : ∀ c ∈ " ".toList, isBlank c = true := by decide
  have solid : isBlank '"' = false := by decide
  have equals := keyEquals?_of_written key blank blank solid (name ++ ['"'])
  have literal := literal?_quote unquoted []
  rw [List.append_nil] at literal
  apply firstAtWord?_of_read
  rw [keyedLiteral?, quote, equals, Option.bind_some, ← quote, literal]
  rfl

theorem loneLiteral?_quote {name : Text} (unquoted : '"' ∉ name) : loneLiteral? (quote name) = some name := by
  have literal := literal?_quote unquoted []
  rw [List.append_nil] at literal
  have skipped : skipBlanks (quote name) = quote name := rfl
  rw [loneLiteral?, skipped, literal]
  rfl

/-- The arguments give the name that was written into them. -/
theorem alias?_args : alias? given.args = some given.name := by
  have kept : (!given.name.isEmpty) = true := by
    simpa using given.filled
  unfold GivenName.args
  cases given.key with
  | alone =>
    have lone : loneLiteral? (NameKey.alone.text ++ quote given.name) = some given.name :=
      loneLiteral?_quote given.unquoted
    simp [alias?, lone, given.trim_name, kept]
  | name =>
    have lone : loneLiteral? (NameKey.name.text ++ quote given.name) = none := rfl
    have keyed : firstAtWord? (keyedLiteral? "name".toList) false (NameKey.name.text ++ quote given.name) =
        some given.name := firstAtWord?_keyedLiteral?_of_key given.name given.unquoted
    simp only [alias?, lone, keyed]
    simp [given.trim_name, kept]
  | value =>
    have lone : loneLiteral? (NameKey.value.text ++ quote given.name) = none := rfl
    -- behind the quote a `name` key would need two more of them
    have other : firstAtWord? (keyedLiteral? "name".toList) false (NameKey.value.text ++ quote given.name) = none := by
      have passed : firstAtWord? (keyedLiteral? "name".toList) false (NameKey.value.text ++ quote given.name) =
          firstAtWord? (keyedLiteral? "name".toList) false (given.name ++ ['"']) := rfl
      rw [passed]
      apply firstAtWord?_keyedLiteral?_eq_none
      simp [List.count_eq_zero.mpr given.unquoted]
    have keyed : firstAtWord? (keyedLiteral? "value".toList) false (NameKey.value.text ++ quote given.name) =
        some given.name := firstAtWord?_keyedLiteral?_of_key given.name given.unquoted
    simp only [alias?, lone, other, keyed]
    simp [given.trim_name, kept]

theorem Written.name_declared (parameter : Written) : parameter.declared.name = parameter.name := by
  unfold Written.declared Declared.name Written.name
  cases parameter.given with
  | none => rfl
  | some given => simp [alias?_args]

end Names

section Annotations

/-- A text that starts with neither a blank nor a parenthesis. -/
def Solid (text : Text) : Prop :=
  ∃ c cs, text = c :: cs ∧ isBlank c = false ∧ c ≠ '('

theorem skipBlanks_of_solid {text : Text} (solid : Solid text) : skipBlanks text = text := by
  obtain ⟨c, cs, rfl, notBlank, -⟩ := solid
  rw [skipBlanks, List.dropWhile_cons, notBlank]
  rfl

theorem skipBlanks1?_of_solid {text : Text} (solid : Solid text) : skipBlanks1? (' ' :: text) = some text := by
  have blank : isBlank ' ' = true := by decide
  rw [skipBlanks1?, if_pos blank, skipBlanks_of_solid solid]

theorem arguments?_argumentsText {args : Option Text} (closed : ∀ text ∈ args, ')' ∉ text) {rest : Text}
    (solid : Solid rest) :
    arguments? (argumentsText args ++ ' ' :: rest) = args.map fun text => (text, ' ' :: rest) := by
  cases args with
  | none =>
    have skipped : skipBlanks (' ' :: rest) = rest := skipBlanks_of_solid solid
    obtain ⟨c, cs, rfl, -, noParenthesis⟩ := solid
    rw [argumentsText, List.nil_append, arguments?, skipped]
    split
    · rename_i opened
      cases opened
      exact absurd rfl noParenthesis
    · rfl
  | some text =>
    have shape : argumentsText (some text) ++ ' ' :: rest = '(' :: (text ++ ')' :: (' ' :: rest)) := by
      simp [argumentsText]
    rw [shape, arguments?_of_closed (closed text rfl)]
    rfl

theorem skipArguments_argumentsText {args : Option Text} (closed : ∀ text ∈ args, ')' ∉ text) {rest : Text}
    (solid : Solid rest) : skipArguments (argumentsText args ++ ' ' :: rest) = ' ' :: rest := by
  rw [skipArguments, arguments?_argumentsText closed solid]
  cases args <;> rfl

/-- The name of an annotation ends where its arguments or the space behind it start. -/
theorem exists_boundary_argumentsText (args : Option Text) (rest : Text) :
    ∃ c cs, argumentsText args ++ ' ' :: rest = c :: cs ∧ inQualifiedName c = false := by
  cases args with
  | none => exact ⟨' ', rest, rfl, by decide⟩
  | some text => exact ⟨'(', text ++ [')'] ++ ' ' :: rest, rfl, by decide⟩

theorem isWord_of_boundary {c : Char} (boundary : inQualifiedName c = false) : isWord c = false := by
  rw [inQualifiedName, Bool.or_eq_false_iff] at boundary
  exact boundary.1

theorem annotationText_append (name : Text) (args : Option Text) (rest : Text) :
    annotationText name args ++ rest = '@' :: (name ++ (argumentsText args ++ ' ' :: rest)) := by
  simp [annotationText]

theorem readAnnotated?_nested (nested : Nested) {rest : Text} (solid : Solid rest) :
    readAnnotated? inQualifiedName (nested.text ++ rest) = some rest := by
  obtain ⟨c, cs, shape⟩ := List.exists_cons_of_ne_nil nested.filled
  have inName : ∀ d ∈ c :: cs, inQualifiedName d = true := by
    intro d member
    simp [inQualifiedName, nested.word d (shape ▸ member)]
  obtain ⟨first, others⟩ := List.forall_mem_cons.mp inName
  obtain ⟨d, ds, behind, boundary⟩ := exists_boundary_argumentsText nested.args rest
  have skipped : (cs ++ (argumentsText nested.args ++ ' ' :: rest)).dropWhile inQualifiedName =
      argumentsText nested.args ++ ' ' :: rest := by
    rw [behind]
    exact dropWhile_append_cons others boundary ds
  have closed : ∀ text ∈ nested.args, ')' ∉ text := fun text given => (nested.enclosed text given).2.1
  rw [Nested.text, annotationText_append, shape, List.cons_append, readAnnotated?, if_pos first, skipped,
    skipArguments_argumentsText closed solid, skipBlanks1?_of_solid solid]

theorem solid_nested (all : List Nested) {rest : Text} (solid : Solid rest) :
    Solid (all.flatMap (·.text) ++ rest) := by
  cases all with
  | nil => exact solid
  | cons nested others => exact ⟨'@', _, rfl, by decide, by decide⟩

/-- All nested annotations are passed over. -/
theorem skipAnnotations_nested (all : List Nested) {rest : Text} (solid : Solid rest)
    (unmarked : rest.head? ≠ some '@') :
    skipAnnotations inQualifiedName (all.flatMap (·.text) ++ rest) = rest := by
  induction all with
  | nil => exact skipAnnotations_of_unmarked unmarked
  | cons nested others ih =>
    have read := readAnnotated?_nested nested (solid_nested others solid)
    have shorter : (others.flatMap (·.text) ++ rest).length <
        (nested.text ++ (others.flatMap (·.text) ++ rest)).length := by
      simp [Nested.text, annotationText]
      omega
    rw [List.flatMap_cons, List.append_assoc, skipAnnotations, skipAll, read]
    simp only [if_pos shorter]
    exact ih

end Annotations

section Types

theorem inTypeName_of_inName {c : Char} (inName : isWord c = true ∨ c = '.' ∨ c = '$') : inTypeName c = true := by
  rcases inName with word | rfl | rfl
  · simp [inTypeName, inQualifiedName, word]
  · decide
  · decide

theorem isBlank_of_inTypeName {c : Char} (inName : inTypeName c = true) : isBlank c = false := by
  simp only [inTypeName, inQualifiedName, Bool.or_eq_true, beq_iff_eq] at inName
  rcases inName with (word | rfl) | rfl
  · exact isBlank_of_isWord word
  · decide
  · decide

theorem solid_of_inTypeName {text : Text} (filled : text ≠ []) (inName : ∀ c ∈ text, inTypeName c = true)
    (rest : Text) : Solid (text ++ rest) := by
  obtain ⟨c, cs, rfl⟩ := List.exists_cons_of_ne_nil filled
  have first := inName c List.mem_cons_self
  refine ⟨c, cs ++ rest, rfl, isBlank_of_inTypeName first, ?_⟩
  rintro rfl
  exact absurd first (by decide)

variable {identifier : Text}

theorem IsIdentifier.solid (valid : IsIdentifier identifier) (rest : Text) : Solid (identifier ++ rest) :=
  solid_of_inTypeName valid.filled (fun c member => inTypeName_of_inName (.inl (valid.word c member))) rest

theorem IsIdentifier.head?_ne (valid : IsIdentifier identifier) {c : Char} (boundary : isWord c = false)
    (rest : Text) : (identifier ++ rest).head? ≠ some c := by
  obtain ⟨d, ds, rfl⟩ := List.exists_cons_of_ne_nil valid.filled
  intro same
  cases same
  rw [valid.word c List.mem_cons_self] at boundary
  cases boundary

theorem identifier?_of_valid (valid : IsIdentifier identifier) {c : Char} (boundary : isWord c = false) (rest : Text) :
    identifier? (' ' :: (identifier ++ c :: rest)) = some (identifier, c :: rest) := by
  have starts : startsWithWord (identifier ++ c :: rest) = true := by
    obtain ⟨d, ds, rfl⟩ := List.exists_cons_of_ne_nil valid.filled
    exact valid.word d List.mem_cons_self
  rw [identifier?, skipBlanks1?_of_solid (valid.solid _)]
  simp only [starts, if_true, takeWhile_append_cons valid.word boundary, dropWhile_append_cons valid.word boundary]

theorem bracketPair?_eq_none {text : Text} (other : (skipBlanks text).head? ≠ some '[') : bracketPair? text = none := by
  unfold bracketPair?
  split
  · rename_i opened
    rw [opened] at other
    exact absurd rfl other
  · rfl

theorem skipAll_bracketPair?_of_none {text : Text} (other : (skipBlanks text).head? ≠ some '[') :
    skipAll bracketPair? text = text := by
  rw [skipAll, bracketPair?_eq_none other]

/-- What stands behind a type, an identifier, starts neither brackets nor type arguments. -/
theorem head?_skipBlanks_identifier (valid : IsIdentifier identifier) {c : Char} (boundary : isWord c = false)
    (rest : Text) : (skipBlanks (' ' :: (identifier ++ rest))).head? ≠ some c := by
  have skipped : skipBlanks (' ' :: (identifier ++ rest)) = identifier ++ rest :=
    skipBlanks_of_solid (valid.solid rest)
  rw [skipped]
  exact valid.head?_ne boundary rest

/-- Array brackets are passed over as far as they are written. -/
theorem skipAll_brackets (valid : IsIdentifier identifier) (isArray : Bool) (rest : Text) :
    skipAll bracketPair? ((if isArray then "[]".toList else []) ++ ' ' :: (identifier ++ rest)) =
      ' ' :: (identifier ++ rest) := by
  have behind := skipAll_bracketPair?_of_none (head?_skipBlanks_identifier valid (by decide) rest)
  cases isArray with
  | false => exact behind
  | true =>
    have read : bracketPair? ('[' :: ']' :: ' ' :: (identifier ++ rest)) = some (' ' :: (identifier ++ rest)) := rfl
    have shape : (if true then "[]".toList else []) ++ ' ' :: (identifier ++ rest) =
        '[' :: ']' :: ' ' :: (identifier ++ rest) := rfl
    rw [shape, skipAll, read]
    simpa using behind

/-- The closing brackets inside type arguments are no places where a type ends, so the search goes on to the one
behind them. -/
theorem findSome?_closings {α : Type} {found : α} {read : Text → Option α} {inner tail : Text}
    (unopened : '(' ∉ inner) (unclosed : ')' ∉ inner)
    (followed : ∀ n < inner.length, inner[n]? = some '>' →
      (inner ++ ['>'])[n + 1]? = some ',' ∨ (inner ++ ['>'])[n + 1]? = some '>')
    (silent : ∀ c ∈ [',', '>'], ∀ cs, read (c :: cs) = none) (success : read tail = some found) (others : List Text) :
    (closings (inner ++ '>' :: tail) ++ others).findSome? read = some found := by
  induction inner with
  | nil => simp [closings, success]
  | cons c cs ih =>
    obtain ⟨notOpen, unopened⟩ := List.ne_and_not_mem_of_not_mem_cons unopened
    obtain ⟨notClose, unclosed⟩ := List.ne_and_not_mem_of_not_mem_cons unclosed
    have behind := ih unopened unclosed fun n bound closes => followed (n + 1) (Nat.succ_lt_succ bound) closes
    rw [List.cons_append, closings, if_neg (not_or.mpr ⟨notOpen.symm, notClose.symm⟩)]
    by_cases closes : c = '>'
    · have next := followed 0 (Nat.succ_pos _) (congrArg some closes)
      have fails : read (cs ++ '>' :: tail) = none := by
        cases cs with
        | nil => exact silent '>' (by decide) tail
        | cons d ds =>
          have listed : d ∈ [',', '>'] := by simpa using next
          exact silent d listed (ds ++ '>' :: tail)
      rw [if_pos closes, List.cons_append, List.findSome?_cons, fails]
      exact behind
    · rw [if_neg closes]
      exact behind

variable (type : WrittenType)

/-- Of the places where a written type can end, the first with an identifier behind it is its own end. -/
theorem findSome?_typeEnds {α : Type} {found : α} {read : Text → Option α} (valid : IsIdentifier identifier)
    {rest : Text} (silent : ∀ c ∈ [',', '>'], ∀ cs, read (c :: cs) = none)
    (success : read (' ' :: (identifier ++ rest)) = some found) :
    (typeEnds (type.extension ++ ' ' :: (identifier ++ rest))).findSome? read = some found := by
  have unbracketed : ∀ c ∈ [',', '>'], ∀ cs, (read ∘ skipAll bracketPair?) (c :: cs) = none := by
    intro c listed cs
    have plain : ∀ c ∈ [',', '>'], isBlank c = false ∧ c ≠ '[' := by decide
    obtain ⟨notBlank, noBracket⟩ := plain c listed
    have other : (skipBlanks (c :: cs)).head? ≠ some '[' := by
      rw [skipBlanks, List.dropWhile_cons, notBlank]
      simpa using noBracket
    rw [Function.comp_apply, skipAll_bracketPair?_of_none other, silent c listed]
  have ended : (read ∘ skipAll bracketPair?) ((if type.isArray then "[]".toList else []) ++
      ' ' :: (identifier ++ rest)) = some found := by
    rw [Function.comp_apply, skipAll_brackets valid, success]
  rw [typeEnds, List.findSome?_map, WrittenType.extension]
  cases given : type.arguments with
  | none =>
    have noArguments : typeArgumentEnds ((if type.isArray then "[]".toList else []) ++ ' ' :: (identifier ++ rest)) =
        [] := by
      unfold typeArgumentEnds
      split
      · rename_i opened
        cases array : type.isArray with
        | true =>
          rw [array] at opened
          cases opened
        | false =>
          rw [array] at opened
          have other := head?_skipBlanks_identifier valid (show isWord '<' = false by decide) rest
          exact absurd (congrArg List.head? opened) other
      · rfl
    rw [List.nil_append, noArguments, List.nil_append, List.findSome?_singleton, ended]
  | some inner =>
    obtain ⟨unopened, unclosed, -⟩ := type.enclosed inner given
    have shape : '<' :: (inner ++ ['>']) ++ (if type.isArray then "[]".toList else []) ++ ' ' :: (identifier ++ rest) =
        '<' :: (inner ++ '>' :: ((if type.isArray then "[]".toList else []) ++ ' ' :: (identifier ++ rest))) := by
      simp only [List.cons_append, List.append_assoc, List.nil_append]
    rw [shape]
    exact findSome?_closings unopened unclosed (type.closings inner given) unbracketed ended _

theorem exists_boundary_extension (rest : Text) :
    ∃ c cs, type.extension ++ ' ' :: rest = c :: cs ∧ inTypeName c = false := by
  unfold WrittenType.extension
  cases type.arguments with
  | some inner => exact ⟨'<', _, rfl, by decide⟩
  | none =>
    cases type.isArray with
    | true => exact ⟨'[', _, rfl, by decide⟩
    | false => exact ⟨' ', _, rfl, by decide⟩

theorem WrittenType.inTypeName_name : ∀ c ∈ type.name, inTypeName c = true :=
  fun c member => inTypeName_of_inName (type.inName c member)

theorem WrittenType.solid (rest : Text) : Solid (type.text ++ rest) := by
  rw [WrittenType.text, List.append_assoc]
  exact solid_of_inTypeName type.filled type.inTypeName_name _

/-- A type and the identifier behind it are read as they are written. -/
theorem typed?_of_written (valid : IsIdentifier identifier) {c : Char} (boundary : isWord c = false) (rest : Text) :
    typed? (type.text ++ ' ' :: (identifier ++ c :: rest)) = some ((type.text, identifier), c :: rest) := by
  obtain ⟨d, ds, behind, stops⟩ := exists_boundary_extension type (identifier ++ c :: rest)
  have starts : (type.text ++ ' ' :: (identifier ++ c :: rest)).head?.any inTypeName = true := by
    obtain ⟨e, es, shape⟩ := List.exists_cons_of_ne_nil type.filled
    rw [WrittenType.text, shape]
    exact type.inTypeName_name e (shape ▸ List.mem_cons_self)
  have skipped : (type.text ++ ' ' :: (identifier ++ c :: rest)).dropWhile inTypeName =
      type.extension ++ ' ' :: (identifier ++ c :: rest) := by
    rw [WrittenType.text, List.append_assoc, behind]
    exact dropWhile_append_cons type.inTypeName_name stops ds
  rw [typed?, if_pos starts, skipped]
  refine findSome?_typeEnds type valid ?_ ?_
  · intro e listed es
    have plain : ∀ c ∈ [',', '>'], isBlank c = false := by decide
    rw [identifier?, skipBlanks1?, plain e listed]
    rfl
  · rw [identifier?_of_valid valid boundary, Option.map_some, upTo_append]

theorem finalKeyword?_of_solid {text : Text} (solid : Solid text) :
    finalKeyword? ("final ".toList ++ text) = some text := by
  have read : after? "final".toList ("final ".toList ++ text) = some (' ' :: text) := after?_eq_some_iff.mpr rfl
  rw [finalKeyword?, read, Option.bind_some, skipBlanks1?_of_solid solid]

/-- A type that is not `final` is not read as this keyword. -/
theorem finalKeyword?_of_type (rest : Text) : finalKeyword? (type.text ++ ' ' :: rest) = none := by
  rw [Option.eq_none_iff_forall_ne_some]
  intro found read
  obtain ⟨behind, keyword, blanks⟩ := Option.bind_eq_some_iff.mp read
  obtain ⟨d, ds, extension, stops⟩ := exists_boundary_extension type rest
  have shape := after?_eq_some_iff.mp keyword
  rw [WrittenType.text, List.append_assoc, extension] at shape
  cases behind with
  | nil => cases blanks
  | cons b bs =>
    have blank : inTypeName b = false := by
      rw [← Bool.not_eq_true]
      intro inName
      rw [skipBlanks1?, isBlank_of_inTypeName inName] at blanks
      cases blanks
    have taken := congrArg (List.takeWhile inTypeName) shape
    rw [takeWhile_append_cons type.inTypeName_name stops, takeWhile_append_cons (by decide) blank] at taken
    exact type.notFinal taken

end Types

section Parameters

variable (parameter : Written)

theorem Written.solid_declaration (rest : Text) : Solid (parameter.declaration ++ rest) := by
  unfold Written.declaration
  cases parameter.isFinal with
  | true => exact ⟨'f', _, rfl, by decide, by decide⟩
  | false =>
    have typed := parameter.type.solid (' ' :: (parameter.identifier ++ rest))
    simpa using typed

theorem Written.head?_declaration (rest : Text) : (parameter.declaration ++ rest).head? ≠ some '@' := by
  unfold Written.declaration
  cases parameter.isFinal with
  | true => exact fun same => nomatch same
  | false =>
    obtain ⟨c, cs, shape⟩ := List.exists_cons_of_ne_nil parameter.type.filled
    have first := parameter.type.inTypeName_name c (shape ▸ List.mem_cons_self)
    simp only [Bool.false_eq_true, if_false, List.nil_append, WrittenType.text, shape, List.cons_append,
      List.head?_cons, ne_eq, Option.some.injEq]
    rintro rfl
    exact absurd first (by decide)

theorem declaration?_of_written {c : Char} (boundary : isWord c = false) (rest : Text) :
    declaration? (parameter.declaration ++ c :: rest) =
      some ((parameter.type.text, parameter.identifier), c :: rest) := by
  have typed := typed?_of_written parameter.type parameter.valid boundary rest
  unfold Written.declaration
  cases parameter.isFinal with
  | true =>
    have keyword := finalKeyword?_of_solid (parameter.type.solid (' ' :: (parameter.identifier ++ c :: rest)))
    have shape : (if true then "final ".toList else []) ++ (parameter.type.text ++ ' ' :: parameter.identifier) ++
        c :: rest = "final ".toList ++ (parameter.type.text ++ ' ' :: (parameter.identifier ++ c :: rest)) := by
      simp
    rw [shape, declaration?, keyword, Option.bind_some, typed]
  | false =>
    have noKeyword := finalKeyword?_of_type parameter.type (parameter.identifier ++ c :: rest)
    have shape : (if false then "final ".toList else []) ++ (parameter.type.text ++ ' ' :: parameter.identifier) ++
        c :: rest = parameter.type.text ++ ' ' :: (parameter.identifier ++ c :: rest) := by
      simp
    rw [shape, declaration?, noKeyword, Option.bind_none, typed]

theorem Binder.word_marker (binder : Binder) : ∀ c ∈ binder.marker, isWord c = true := by
  cases binder <;> decide

theorem Binder.marker_injective : Function.Injective Binder.marker := by
  intro first second same
  cases first <;> cases second <;> first | rfl | exact absurd same (by decide)

theorem GivenName.not_mem_args (given : GivenName) : '(' ∉ given.args ∧ ')' ∉ given.args ∧ '@' ∉ given.args := by
  have outside : ∀ c, c ∉ given.key.text → c ≠ '"' → c ∉ given.name → c ∉ given.args := by
    intro c noKey noQuote noName
    simp [GivenName.args, quote, noKey, noQuote, noName]
  have keyPlain : ∀ key : NameKey, '(' ∉ key.text ∧ ')' ∉ key.text ∧ '@' ∉ key.text := by
    intro key
    cases key <;> decide
  obtain ⟨unopened, unclosed, unmarked⟩ := keyPlain given.key
  exact ⟨outside '(' unopened (by decide) fun member => (given.plain _ member).2.1 rfl,
    outside ')' unclosed (by decide) fun member => (given.plain _ member).2.2.1 rfl,
    outside '@' unmarked (by decide) fun member => (given.plain _ member).2.2.2.1 rfl⟩

theorem Written.enclosed_args : ∀ text ∈ parameter.given.map (·.args), '(' ∉ text ∧ ')' ∉ text ∧ '@' ∉ text := by
  intro text written
  obtain ⟨given, -, rfl⟩ := Option.map_eq_some_iff.mp written
  exact given.not_mem_args

/-- A written parameter is read as a whole by the reader of its annotation. -/
theorem parameter?_of_written {c : Char} (boundary : isWord c = false) (rest : Text) :
    parameter? parameter.binder.marker (parameter.text ++ c :: rest) = some (parameter.declared, c :: rest) := by
  have solid := parameter.solid_declaration (c :: rest)
  have solidNested := solid_nested parameter.nested solid
  have closed : ∀ text ∈ parameter.given.map (·.args), ')' ∉ text :=
    fun text written => (parameter.enclosed_args text written).2.1
  obtain ⟨d, ds, behind, ends⟩ := exists_boundary_argumentsText (parameter.given.map (·.args))
    (parameter.nested.flatMap (·.text) ++ (parameter.declaration ++ c :: rest))
  have letters := parameter.binder.word_marker
  have marked := wholeWord?_of_word letters letters (isWord_of_boundary ends) ds
  rw [if_pos rfl, ← behind] at marked
  have nested := skipAnnotations_nested parameter.nested solid (parameter.head?_declaration (c :: rest))
  rw [Written.text, List.append_assoc, List.append_assoc, annotationText_append, parameter?, marked]
  simp only [skipArguments_argumentsText closed solidNested, skipBlanks1?_of_solid solidNested, Option.map_some, nested,
    declaration?_of_written parameter boundary rest, arguments?_argumentsText closed solidNested, Option.map_map]
  simp [Written.declared, Function.comp_def]

end Parameters

section Passing

variable (binder : Binder)

theorem allMatches_unmarked {front : Text} (unmarked : '@' ∉ front) (back : Text) :
    allMatches (parameter? binder.marker) (front ++ back) = allMatches (parameter? binder.marker) back :=
  allMatches_append ((parameter?_needs binder.marker).fails unmarked back)

/-- A search for one annotation passes over another one. -/
theorem allMatches_annotationText {binder : Binder} {name : Text} {args : Option Text}
    (word : ∀ c ∈ name, isWord c = true) (other : name ≠ binder.marker)
    (enclosed : ∀ text ∈ args, '(' ∉ text ∧ ')' ∉ text ∧ '@' ∉ text) (back : Text) :
    allMatches (parameter? binder.marker) (annotationText name args ++ back) =
      allMatches (parameter? binder.marker) back := by
  have noSign : '@' ∉ name := not_mem_of_isWord (by decide) word
  have unmarked : '@' ∉ argumentsText args := by
    cases args with
    | none => simp [argumentsText]
    | some text => simp [argumentsText, (enclosed text rfl).2.2]
  have fails : parameter? binder.marker ('@' :: (name ++ (argumentsText args ++ ' ' :: back))) = none := by
    obtain ⟨d, ds, behind, ends⟩ := exists_boundary_argumentsText args back
    rw [behind, parameter?, wholeWord?_of_word binder.word_marker word (isWord_of_boundary ends), if_neg other]
  rw [annotationText_append, allMatches_cons fails, allMatches_unmarked binder noSign,
    allMatches_unmarked binder unmarked]
  exact allMatches_unmarked binder (show '@' ∉ [' '] by decide) back

theorem allMatches_nested (all : List Nested) (back : Text) :
    allMatches (parameter? binder.marker) (all.flatMap (·.text) ++ back) =
      allMatches (parameter? binder.marker) back := by
  induction all with
  | nil => rfl
  | cons nested others ih =>
    rw [List.flatMap_cons, List.append_assoc, Nested.text,
      allMatches_annotationText nested.word (nested.unbound binder) nested.enclosed, ih]

theorem WrittenType.unmarked (type : WrittenType) : '@' ∉ type.text := by
  have name : '@' ∉ type.name := fun member => absurd (type.inTypeName_name _ member) (by decide)
  unfold WrittenType.text WrittenType.extension
  cases given : type.arguments with
  | none => cases type.isArray <;> simp [name]
  | some inner =>
    have arguments := (type.enclosed inner given).2.2
    cases type.isArray <;> simp [name, arguments]

theorem Written.unmarked_declaration (parameter : Written) : '@' ∉ parameter.declaration := by
  have identifier : '@' ∉ parameter.identifier :=
    not_mem_of_isWord (by decide) parameter.valid.word
  unfold Written.declaration
  cases parameter.isFinal <;> simp [parameter.type.unmarked, identifier]

/-- A search takes a written parameter with its own annotation, and passes over one with the other annotation. -/
theorem allMatches_written (parameter : Written) {c : Char} (boundary : isWord c = false) (rest : Text) :
    allMatches (parameter? binder.marker) (parameter.text ++ c :: rest) =
      (if parameter.binder = binder then [parameter.declared] else []) ++
        allMatches (parameter? binder.marker) (c :: rest) := by
  split
  · rename_i own
    subst own
    have shorter : (c :: rest).length < (parameter.text ++ c :: rest).length := by
      simp only [Written.text, annotationText, List.length_append, List.length_cons]
      omega
    exact allMatches_of_read (parameter?_of_written parameter boundary rest) shorter
  · rename_i foreign
    have other : parameter.binder.marker ≠ binder.marker := fun same => foreign (Binder.marker_injective same)
    rw [Written.text, List.append_assoc, List.append_assoc,
      allMatches_annotationText parameter.binder.word_marker other parameter.enclosed_args, allMatches_nested,
      allMatches_unmarked binder parameter.unmarked_declaration]
    rfl

end Passing

end RouteComments.Binding
