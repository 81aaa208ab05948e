import RouteComments.Proofs.ScannedMappings
import RouteComments.Proofs.TypeDeclarations

set_option autoImplicit false

namespace RouteComments

open Text

namespace Java

/-- A comment on lines of its own. -/
def blockComment (body : Text) : Text :=
  "/*".toList ++ (body ++ "*/\n".toList)

theorem bytes_blockComment (body : Text) : bytes (blockComment body) = 2 + bytes body + 3 := by
  have opening : bytes "/*".toList = 2 := by decide
  have closing : bytes "*/\n".toList = 3 := by decide
  rw [blockComment, bytes_append, bytes_append, opening, closing, Nat.add_assoc]

/-- Behind a comment the first declaration is that of the comment, if it has one, or else that of the text. -/
theorem typeDeclarationOffset_blockComment {body : Text} (unmarked : '@' ∉ body) (text : Text) :
    typeDeclarationOffset (blockComment body ++ text) =
      (typeDeclarationFrom 2 false body).or ((typeDeclarationOffset text).map (· + bytes (blockComment body))) := by
  have stable : ∀ line, line <:+ body → typeDeclarationAt? (line ++ '*' :: '/' :: '\n' :: text) =
      (typeDeclarationAt? line).map (· ++ '*' :: '/' :: '\n' :: text) := by
    intro line suffix
    have plain : '@' ∉ line := fun member => unmarked (suffix.subset member)
    exact typeDeclarationAt?_append_of_unmarked (by decide) (by decide) plain (by decide) _
  have slash : ∀ rest, typeDeclarationAt? ('/' :: rest) = none := fun rest => by
    have read := typeDeclarationAt?_append_of_unmarked (c := '/') (by decide) (by decide) List.not_mem_nil (by decide)
      rest
    rwa [typeDeclarationAt?_nil] at read
  have shape : blockComment body ++ text = '/' :: '*' :: (body ++ '*' :: '/' :: '\n' :: text) := by
    simp [blockComment]
  have opened : typeDeclarationOffset (blockComment body ++ text) =
      typeDeclarationFrom 2 false (body ++ '*' :: '/' :: '\n' :: text) := by
    rw [shape, typeDeclarationOffset, typeDeclarationFrom, if_pos rfl, slash]
    rfl
  have closed : typeDeclarationFrom (2 + bytes body) false ('*' :: '/' :: '\n' :: text) =
      typeDeclarationFrom (0 + bytes (blockComment body)) true text := by
    rw [bytes_blockComment, Nat.zero_add]
    rfl
  rw [opened, typeDeclarationFrom_append stable, closed, typeDeclarationFrom_add, typeDeclarationOffset]

/-- A comment moves the declaration by its length exactly if it is prose. -/
theorem typeDeclarationOffset_blockComment_iff {body : Text} (unmarked : '@' ∉ body) (text : Text) :
    typeDeclarationOffset (blockComment body ++ text) =
        (typeDeclarationOffset text).map (· + bytes (blockComment body)) ↔ ¬ DeclaresInLine body := by
  rw [typeDeclarationOffset_blockComment unmarked, ← @typeDeclarationFrom_false_eq_none_iff body 2 unmarked]
  constructor
  · intro moved
    cases declared : typeDeclarationFrom 2 false body with
    | none => rfl
    | some found =>
      -- the keyword in the comment stands before everything behind it
      rw [declared, Option.some_or] at moved
      obtain ⟨other, -, place⟩ := Option.map_eq_some_iff.mp moved.symm
      have inside := lt_of_typeDeclarationFrom declared
      rw [bytes_blockComment] at place
      omega
  · intro silent
    rw [silent, Option.none_or]

end Java

namespace Mapping

open Java

/-- A mapping of a text with more before it. -/
def Occurrence.shift (more : Nat) (occurrence : Occurrence) : Occurrence :=
  { occurrence with offset := occurrence.offset + more }

section Shift

variable {front text : Text}

theorem isClassLevel_shift (more : Nat) (declaration : Option Nat) (occurrence : Occurrence) :
    (occurrence.shift more).isClassLevel (declaration.map (· + more)) = occurrence.isClassLevel declaration := by
  cases declaration with
  | none => rfl
  | some place => simp [Occurrence.isClassLevel, Occurrence.shift]

theorem mappings_append (unmarked : '@' ∉ front) (text : Text) :
    mappings (front ++ text) = (mappings text).map (Occurrence.shift (bytes front)) := by
  rw [mappings_eq, mappings_eq, matchesFrom_append (mapping?_needs.fails unmarked text), matchesFrom_add, List.map_map,
    List.map_map]
  rfl

/-- The mappings stay divided as they are where the declaration moves with them. -/
theorem divided_append (unmarked : '@' ∉ front)
    (moved : typeDeclarationOffset (front ++ text) = (typeDeclarationOffset text).map (· + bytes front)) :
    classBasePath (front ++ text) = classBasePath text ∧
      methodMappings (front ++ text) = (methodMappings text).map (Occurrence.shift (bytes front)) := by
  constructor
  · simp only [classBasePath, moved, mappings_append unmarked, List.filter_map, Function.comp_def, isClassLevel_shift,
      List.getLast?_map]
    cases ((mappings text).filter (·.isClassLevel (typeDeclarationOffset text))).getLast? <;> rfl
  · simp only [methodMappings, moved, mappings_append unmarked, List.filter_map, Function.comp_def, isClassLevel_shift]

end Shift

/-- Before every source a comment without an `@` moves the type declaration and the mappings of the methods by its
length and keeps the base path, exactly if no line of it behind the first reads like a declaration. -/
theorem prose_ignored_iff {body : Text} (unmarked : '@' ∉ body) (text : Text) :
    (typeDeclarationOffset (blockComment body ++ text) =
          (typeDeclarationOffset text).map (· + bytes (blockComment body)) ∧
        classBasePath (blockComment body ++ text) = classBasePath text ∧
        methodMappings (blockComment body ++ text) =
          (methodMappings text).map (Occurrence.shift (bytes (blockComment body)))) ↔
      ¬ DeclaresInLine body := by
  rw [← typeDeclarationOffset_blockComment_iff unmarked text]
  refine ⟨And.left, fun moved => ⟨moved, divided_append ?_ moved⟩⟩
  simp [blockComment, unmarked]

/-- A controller with a base path. -/
def filmSource : Text :=
  "@RequestMapping(\"/films\")\npublic class Films \x7b\n".toList ++
    "    @GetMapping(\"/\x7bid\x7d\")\n    void find() \x7b\x7d\n\x7d\n".toList

/-- Prose with an asterisk at the start of each line. -/
def starredProse : Text :=
  "*\n * This class serves films.\n * class Films\n ".toList

/-- Prose with a line that the word `class` starts. -/
def wrappedProse : Text :=
  "\n Films of a\n class of their own.\n".toList

/-- The asterisks keep a line from being read as a declaration. -/
theorem starredProse_ignored :
    '@' ∉ starredProse ∧ ¬ DeclaresInLine starredProse ∧ typeDeclarationOffset filmSource = some 33 ∧
      typeDeclarationOffset (blockComment starredProse ++ filmSource) =
        (typeDeclarationOffset filmSource).map (· + bytes (blockComment starredProse)) ∧
      classBasePath (blockComment starredProse ++ filmSource) = classBasePath filmSource ∧
      methodMappings (blockComment starredProse ++ filmSource) =
        (methodMappings filmSource).map (Occurrence.shift (bytes (blockComment starredProse))) := by
  have unmarked : '@' ∉ starredProse := by decide
  have silent : typeDeclarationFrom 0 false starredProse = none := by decide +kernel
  have prose := (typeDeclarationFrom_false_eq_none_iff unmarked).mp silent
  exact ⟨unmarked, prose, by decide +kernel, (prose_ignored_iff unmarked filmSource).mpr prose⟩

/-- The wrapped line is taken for the declaration, and the mapping of the class for one of a method. -/
theorem wrappedProse_mistaken :
    '@' ∉ wrappedProse ∧ occursIn "*/".toList wrappedProse = false ∧
      typeDeclarationOffset filmSource = some 33 ∧ bytes (blockComment wrappedProse) = 39 ∧
      typeDeclarationOffset (blockComment wrappedProse ++ filmSource) = some 16 ∧
      classBasePath filmSource = "/films".toList ∧ classBasePath (blockComment wrappedProse ++ filmSource) = [] ∧
      methodMappings filmSource = [{ kind := .get, args := "\"/\x7bid\x7d\"".toList, offset := 51 }] ∧
      methodMappings (blockComment wrappedProse ++ filmSource) =
        [{ kind := .generic, args := "\"/films\"".toList, offset := 39 },
          { kind := .get, args := "\"/\x7bid\x7d\"".toList, offset := 90 }] := by
  decide +kernel

end Mapping

end RouteComments
