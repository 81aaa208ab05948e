import RouteComments.Proofs.PlannedBlocks
import RouteComments.Proofs.Searches

set_option autoImplicit false

namespace RouteComments

open Text

namespace Mapping

/-- A line that maps a path literal, without its terminator. -/
def mappingLine (literal : Text) : Text :=
  "    @GetMapping(\"".toList ++ literal ++ "\")".toList

/-- A class with one method, declared in one line below the mapping of a path literal. -/
def mappedMethod (literal declaration : Text) : Text :=
  "class A \x7b\n    @GetMapping(\"".toList ++ literal ++ "\")\n    ".toList ++ declaration ++ "\n\x7d\n".toList

def literalPaths (literal : Text) : List Text :=
  extractPaths ('"' :: (literal ++ ['"']))

variable {literal declaration : Text}

def mappedLines (literal declaration : Text) : List Line :=
  [⟨"class A \x7b".toList, .lf⟩, ⟨mappingLine literal, .lf⟩, ⟨"    ".toList ++ declaration, .lf⟩,
    ⟨"\x7d".toList, .lf⟩, ⟨[], .none⟩]

theorem render_mappedLines (literal declaration : Text) :
    Line.render (mappedLines literal declaration) = mappedMethod literal declaration := by
  have front : "class A \x7b\n    @GetMapping(\"".toList =
      "class A \x7b".toList ++ (['\n'] ++ "    @GetMapping(\"".toList) := by decide
  have middle : "\")\n    ".toList = "\")".toList ++ (['\n'] ++ "    ".toList) := by decide
  have back : "\n\x7d\n".toList = ['\n'] ++ ("\x7d".toList ++ ['\n']) := by decide
  unfold mappedLines mappedMethod mappingLine
  simp only [front, middle, back, Line.render_cons, Line.render_nil, Ending.text, List.append_assoc,
    List.append_nil]

/-- Neither part brings a line break, so each stands in its own line. -/
theorem read_mappedMethod (unbroken : '\n' ∉ literal) (oneLine : '\n' ∉ declaration)
    (closed : declaration.getLast? ≠ some '\r') :
    Line.read (mappedMethod literal declaration) = mappedLines literal declaration := by
  have mapped : Line.Whole ⟨mappingLine literal, .lf⟩ := by
    unfold mappingLine
    refine ⟨?_, fun _ => ?_⟩
    · rw [List.mem_append, List.mem_append, not_or, not_or]
      exact ⟨⟨by decide, unbroken⟩, by decide⟩
    · rw [List.getLast?_append]
      have last : "\")".toList.getLast? = some ')' := by decide
      rw [last, Option.some_or]
      decide
  have declared : Line.Whole ⟨"    ".toList ++ declaration, .lf⟩ := by
    refine ⟨?_, fun _ => ?_⟩
    · rw [List.mem_append, not_or]
      exact ⟨by decide, oneLine⟩
    · rw [List.getLast?_append]
      cases last : declaration.getLast? with
      | none => decide
      | some c =>
        rw [last] at closed
        exact closed
  have first : Line.Whole ⟨"class A \x7b".toList, .lf⟩ := ⟨by decide, fun _ => by decide⟩
  have brace : Line.Whole ⟨"\x7d".toList, .lf⟩ := ⟨by decide, fun _ => by decide⟩
  have empty : Line.Whole ⟨[], .none⟩ := ⟨by decide, fun _ => by decide⟩
  rw [← render_mappedLines]
  refine Line.read_render ⟨(mappedLines literal declaration).take 4, _, rfl, ?_, empty, rfl⟩
  exact List.forall_mem_cons.mpr ⟨⟨first, rfl⟩, List.forall_mem_cons.mpr ⟨⟨mapped, rfl⟩,
    List.forall_mem_cons.mpr ⟨⟨declared, rfl⟩, List.forall_mem_singleton.mpr ⟨brace, rfl⟩⟩⟩⟩

/-- The class split before its mapping. -/
theorem mappedMethod_split (literal declaration : Text) :
    mappedMethod literal declaration = "class A \x7b\n    ".toList ++ ('@' :: ("GetMapping".toList ++
      '(' :: ('"' :: (literal ++ ['"']) ++ ')' :: ("\n    ".toList ++ (declaration ++ "\n\x7d\n".toList))))) := by
  have front : "class A \x7b\n    @GetMapping(\"".toList =
      "class A \x7b\n    ".toList ++ '@' :: ("GetMapping".toList ++ ['(', '"']) := by decide
  have middle : "\")\n    ".toList = '"' :: ')' :: "\n    ".toList := by decide
  unfold mappedMethod
  simp only [front, middle, List.append_assoc, List.cons_append, List.nil_append]

/-- A mapping of a literal is read with the literal as its arguments. -/
theorem mapping?_literal (enclosed : ')' ∉ literal) (rest : Text) :
    mapping? ('@' :: ("GetMapping".toList ++ '(' :: ('"' :: (literal ++ ['"']) ++ ')' :: rest))) =
      some ((.get, '"' :: (literal ++ ['"'])), rest) := by
  have closed : ')' ∉ '"' :: (literal ++ ['"']) := by simp [enclosed]
  have named : ∀ behind, kind? ("GetMapping".toList ++ '(' :: behind) = some (.get, '(' :: behind) := fun _ => rfl
  rw [mapping?, named]
  simp only [Java.arguments?_of_closed closed]

/-- The only mapping is the one with the literal. -/
theorem mappings_mappedMethod (enclosed : ')' ∉ literal) (unmapped : mappings declaration = []) :
    mappings (mappedMethod literal declaration) =
      [{ kind := .get, args := '"' :: (literal ++ ['"']), offset := bytes "class A \x7b\n    ".toList }] := by
  have silent : ∀ rest, rest <:+ declaration → rest ≠ [] → mapping? (rest ++ "\n\x7d\n".toList) = none := by
    intro rest suffix filled
    have here := read_eq_none_of_matchesFrom (List.map_eq_nil_iff.mp unmapped) rest suffix filled
    exact mapping?_append (by decide) filled here "\x7d\n".toList
  have behind : ∀ offset, matchesFrom mapping? offset ("\n    ".toList ++ (declaration ++ "\n\x7d\n".toList)) = [] := by
    intro offset
    rw [matchesFrom_append (mapping?_needs.fails (by decide) _), matchesFrom_append silent,
      ← List.append_nil "\n\x7d\n".toList, matchesFrom_append (mapping?_needs.fails (by decide) _), matchesFrom]
  rw [mappings, mappedMethod_split, matchesFrom_append (mapping?_needs.fails (by decide) _), matchesFrom,
    mapping?_literal enclosed]
  simp only [behind, ite_self, List.map_cons, List.map_nil, Nat.zero_add]

end Mapping

namespace Signature

open Mapping

/-- Whether a literal in the line of a mapping ends the signature there. -/
def interrupts (literal : Text) : Bool :=
  hasAccessModifier literal && literal.contains '\x7b'

theorem hasAccessModifier_mappingLine (literal : Text) :
    hasAccessModifier (mappingLine literal) = hasAccessModifier literal := by
  have skipped : ∀ text, hasAccessModifier ("    @GetMapping(\"".toList ++ text) = hasAccessModifier text :=
    fun _ => rfl
  have silent : ∀ inside, firstAtWord? (fun text => accessModifiers.findSome? (wholeWord? · text)) inside
      "\")".toList = none := by decide
  have boundary : isWord '"' = false := by decide
  unfold mappingLine
  rw [List.append_assoc, skipped]
  exact hasAccessModifier_append boundary silent literal

theorem contains_mappingLine {literal : Text} {c : Char} (outside : c ∉ mappingLine []) :
    (mappingLine literal).contains c = literal.contains c := by
  unfold mappingLine at outside ⊢
  rw [List.append_nil, List.mem_append, not_or] at outside
  rw [Bool.eq_iff_iff, List.contains_iff_mem, List.contains_iff_mem]
  simp only [List.mem_append, outside, false_or, or_false]

/-- The signature is the line of the mapping alone when the literal interrupts it, else it goes on to the
declaration. -/
theorem span_mappedLines {literal declaration : Text} (modified : hasAccessModifier declaration = true)
    (opened : '\x7b' ∈ declaration) :
    span ((mappedLines literal declaration).map (·.text)) 1 =
      if interrupts literal then mappingLine literal
      else mappingLine literal ++ ("\n    ".toList ++ declaration) := by
  have indented : hasAccessModifier ("    ".toList ++ declaration) = true := modified
  have brace : ("    ".toList ++ declaration).contains '\x7b' = true := by
    rw [List.contains_iff_mem]
    exact List.mem_append_right _ opened
  have lines : ((mappedLines literal declaration).map (·.text)).drop 1 =
      [mappingLine literal, "    ".toList ++ declaration, "\x7d".toList, []] := rfl
  have held : (mappingLine literal).contains '\x7b' = literal.contains '\x7b' := contains_mappingLine (by decide)
  rw [span, lines, linesFrom, linesFrom, hasAccessModifier_mappingLine, held, Bool.false_or]
  simp only [indented, brace, Bool.or_true, Bool.and_self, if_true]
  rw [← interrupts]
  by_cases ends : interrupts literal = true
  · rw [if_pos ends, if_pos ends, joinWith]
  · have feed : "\n    ".toList = ['\n'] ++ "    ".toList := by decide
    rw [if_neg ends, if_neg ends, joinWith, joinWith, feed]
    simp only [List.append_assoc]

end Signature

namespace Binding

open Mapping

/-- A search for parameters passes over the line of a mapping, whatever its literal says. -/
theorem allMatches_mappingLine {marker literal : Text} (unmarked : '@' ∉ literal)
    (other : ∀ rest, wholeWord? marker ("GetMapping".toList ++ rest) = none) (back : Text) :
    allMatches (parameter? marker) (mappingLine literal ++ back) = allMatches (parameter? marker) back := by
  have indent : '@' ∉ "    ".toList := by decide
  have behind : '@' ∉ "GetMapping(\"".toList ++ literal ++ "\")".toList := by
    rw [List.mem_append, List.mem_append, not_or, not_or]
    exact ⟨⟨by decide, unmarked⟩, by decide⟩
  have here : parameter? marker ('@' :: ("GetMapping(\"".toList ++ literal ++ "\")".toList ++ back)) = none := by
    have named : "GetMapping(\"".toList = "GetMapping".toList ++ ['(', '"'] := by decide
    rw [parameter?, named, List.append_assoc, List.append_assoc, List.append_assoc, other]
  have shape : mappingLine literal ++ back =
      "    ".toList ++ '@' :: ("GetMapping(\"".toList ++ literal ++ "\")".toList ++ back) := by
    have front : "    @GetMapping(\"".toList = "    ".toList ++ '@' :: "GetMapping(\"".toList := by decide
    unfold mappingLine
    simp only [front, List.append_assoc, List.cons_append]
  rw [shape, allMatches_append ((parameter?_needs marker).fails indent _), allMatches_cons here,
    allMatches_append ((parameter?_needs marker).fails behind _)]

end Binding

namespace Parameters

open Mapping Binding

theorem ofSignature_mappingLine {literal : Text} (unmarked : '@' ∉ literal) (back : Text) :
    ofSignature (mappingLine literal ++ back) = ofSignature back := by
  unfold ofSignature
  rw [allMatches_mappingLine unmarked (fun _ => rfl), allMatches_mappingLine unmarked (fun _ => rfl)]

theorem ofSignature_append {front : Text} (unmarked : '@' ∉ front) (back : Text) :
    ofSignature (front ++ back) = ofSignature back := by
  unfold ofSignature
  rw [allMatches_append ((parameter?_needs _).fails unmarked back),
    allMatches_append ((parameter?_needs _).fails unmarked back)]

/-- The literal does not add parameters: there are those of the declaration, or none. -/
theorem ofSignature_span_mappedLines {literal declaration : Text} (unmarked : '@' ∉ literal)
    (modified : Signature.hasAccessModifier declaration = true) (opened : '\x7b' ∈ declaration) :
    ofSignature (Signature.span ((mappedLines literal declaration).map (·.text)) 1) =
      if Signature.interrupts literal then empty else ofSignature declaration := by
  rw [Signature.span_mappedLines modified opened]
  split
  · have alone := ofSignature_mappingLine unmarked []
    rw [List.append_nil] at alone
    rw [alone]
    simp [ofSignature, allMatches, matchesFrom, empty]
  · rw [ofSignature_mappingLine unmarked, ofSignature_append (by decide)]

end Parameters

namespace Plan

open Mapping

/-- The plan has one block, in the second line. -/
theorem ofDocument_mappedMethod {path : Path} {literal declaration : Text} (baseUrl : Text) (enclosed : ')' ∉ literal)
    (unbroken : '\n' ∉ literal) (oneLine : '\n' ∉ declaration) (closed : declaration.getLast? ≠ some '\r')
    (unmapped : mappings declaration = []) :
    ofDocument { path, text := mappedMethod literal declaration } baseUrl =
      [blockAt ((mappedLines literal declaration).map (·.text)) 1 baseUrl []
        { kind := .get, args := '"' :: (literal ++ ['"']), offset := bytes "class A \x7b\n    ".toList }] := by
  have found := mappings_mappedMethod enclosed unmapped
  -- only a generic mapping can belong to the class
  have method : methodMappings (mappedMethod literal declaration) = mappings (mappedMethod literal declaration) := by
    rw [methodMappings, found]
    rfl
  have base : classBasePath (mappedMethod literal declaration) = [] := by
    rw [classBasePath, found]
    rfl
  have line : Document.lineOfOffset { path, text := mappedMethod literal declaration }
      (bytes "class A \x7b\n    ".toList) = 1 := by
    rw [Document.lineOfOffset, mappedMethod_split, Document.lineFeedsBefore_bytes]
    decide
  have lines : Document.lineTexts { path, text := mappedMethod literal declaration } =
      (mappedLines literal declaration).map (·.text) := by
    rw [Document.lineTexts, Document.lines, read_mappedMethod unbroken oneLine closed]
  simp only [ofDocument, method, found, base, lines, line, List.map_cons, List.map_nil]

/-- A method below a mapping has exactly one block. Its URLs are composed with the parameters of its declaration,
unless the path literal holds an access modifier and an opening brace: then they are composed without parameters.
So they are those of the declaration exactly when the literal does not hold both, or when the parameters make no
difference to its paths. -/
theorem urls_mappedMethod_iff (path : Path) (baseUrl literal declaration : Text) (enclosed : ')' ∉ literal)
    (unmarked : '@' ∉ literal) (unbroken : '\n' ∉ literal) (oneLine : '\n' ∉ declaration)
    (closed : declaration.getLast? ≠ some '\r') (modified : Signature.hasAccessModifier declaration = true)
    (opened : '\x7b' ∈ declaration) (unmapped : mappings declaration = []) :
    ∃ block, ofDocument { path, text := mappedMethod literal declaration } baseUrl = [block] ∧
      block.endpoints = (literalPaths literal).map (fun route =>
        { verb := "GET".toList
          url := Url.compose baseUrl [] route
            (if Signature.interrupts literal then .empty else .ofSignature declaration) }) ∧
      (block.endpoints.map (·.url) =
          (literalPaths literal).map (fun route => Url.compose baseUrl [] route (.ofSignature declaration)) ↔
        Signature.interrupts literal = false ∨ ∀ route ∈ literalPaths literal,
          Url.compose baseUrl [] route .empty = Url.compose baseUrl [] route (.ofSignature declaration)) := by
  refine ⟨_, ofDocument_mappedMethod baseUrl enclosed unbroken oneLine closed unmapped, ?_⟩
  have parameters := Parameters.ofSignature_span_mappedLines unmarked modified opened
  have endpoints : (blockAt ((mappedLines literal declaration).map (·.text)) 1 baseUrl []
      { kind := .get, args := '"' :: (literal ++ ['"']), offset := bytes "class A \x7b\n    ".toList }).endpoints =
      (literalPaths literal).map (fun route =>
        { verb := "GET".toList
          url := Url.compose baseUrl [] route
            (if Signature.interrupts literal then .empty else .ofSignature declaration) }) := by
    rw [blockAt, parameters, resolveEndpoints, Occurrence.verbs, resolveVerbs, List.flatMap_singleton]
    rfl
  refine ⟨endpoints, ?_⟩
  rw [endpoints, List.map_map]
  cases Signature.interrupts literal with
  | false => simp
  | true => simp

/-- A declaration with a path variable and a query parameter. -/
def findDeclaration : Text :=
  "public void find(@PathVariable Long id, @RequestParam int page) \x7b\x7d".toList

theorem orderPath_urls :
    let text := mappedMethod "/orders/\x7bid\x7d".toList findDeclaration
    ∃ block, ofDocument { path := Path.ofText "A.java".toList, text } "http://h".toList = [block] ∧
      block.endpoints.map (·.url) = ["http://h/orders/\x7bid:int\x7d?page:int".toList] := by
  obtain ⟨block, planned, _, exact⟩ := urls_mappedMethod_iff (Path.ofText "A.java".toList) "http://h".toList
    "/orders/\x7bid\x7d".toList findDeclaration (by decide) (by decide) (by decide) (by decide) (by decide)
    (by decide +kernel) (by decide) (by decide +kernel)
  refine ⟨block, planned, ?_⟩
  rw [exact.mpr (.inl (by decide +kernel))]
  decide +kernel

/-- A literal that holds an access modifier and a brace takes the type of its variable and the query. -/
theorem publicPath_urls :
    let literal := "/public/\x7bid\x7d".toList
    '"' ∉ literal ∧ ')' ∉ literal ∧ '@' ∉ literal ∧ '\n' ∉ literal ∧ '\r' ∉ literal ∧
      '\n' ∉ findDeclaration ∧ '\r' ∉ findDeclaration ∧ Signature.hasAccessModifier findDeclaration = true ∧
      '\x7b' ∈ findDeclaration ∧ mappings findDeclaration = [] ∧
      (ofDocument { path := Path.ofText "A.java".toList, text := mappedMethod literal findDeclaration }
          "http://h".toList).map (·.endpoints.map (·.url)) = [["http://h/public/\x7bid:string\x7d".toList]] ∧
      (literalPaths literal).map (fun route =>
          Url.compose "http://h".toList [] route (.ofSignature findDeclaration)) =
        ["http://h/public/\x7bid:int\x7d?page:int".toList] := by
  decide +kernel

end Plan

end RouteComments
