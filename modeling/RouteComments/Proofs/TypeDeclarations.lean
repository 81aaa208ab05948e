import RouteComments.Proofs.ClosedTexts

set_option autoImplicit false

namespace RouteComments

open Text

namespace Java

/-- A type declaration without annotations: modifiers with blanks behind each of them, a type keyword, blanks and the
start of a name. -/
inductive Declares : Text → Prop where
  | keyword {word blanks rest : Text} {c : Char} (known : word ∈ typeKeywords) (spaced : blanks ≠ [])
      (blank : ∀ d ∈ blanks, isBlank d = true) (named : isWord c = true) : Declares (word ++ (blanks ++ c :: rest))
  | modifier {word blanks rest : Text} (known : word ∈ typeModifiers) (spaced : blanks ≠ [])
      (blank : ∀ d ∈ blanks, isBlank d = true) (onward : Declares rest) : Declares (word ++ (blanks ++ rest))

/-- A line of a text, but not its first, declares a type behind its indentation. -/
def DeclaresInLine (body : Text) : Prop :=
  ∃ front indent declaration, body = front ++ '\n' :: (indent ++ declaration) ∧
    (∀ c ∈ indent, isSpaceOrTab c = true) ∧ Declares declaration

section Words

variable {words : List Text} {text rest : Text}

theorem readSpaced?_spec (found : readSpaced? words text = some rest) :
    ∃ word ∈ words, ∃ blanks : Text, blanks ≠ [] ∧ (∀ c ∈ blanks, isBlank c = true) ∧
      text = word ++ (blanks ++ rest) ∧ ∀ c ∈ rest.head?, isBlank c = false := by
  obtain ⟨word, known, read⟩ := List.exists_of_findSome?_eq_some found
  obtain ⟨behind, after, skipped⟩ := Option.bind_eq_some_iff.mp read
  obtain ⟨blanks, spaced, blank, rfl, solid⟩ := skipBlanks1?_eq_some_iff.mp skipped
  exact ⟨word, known, blanks, spaced, blank, after?_eq_some_iff.mp after, solid⟩

/-- A word before a blank is the longest run of word characters. -/
theorem takeWhile_word {word blanks : Text} (letters : ∀ c ∈ word, isWord c = true) (spaced : blanks ≠ [])
    (blank : ∀ c ∈ blanks, isBlank c = true) (rest : Text) : (word ++ (blanks ++ rest)).takeWhile isWord = word := by
  obtain ⟨c, others, rfl⟩ := List.exists_cons_of_ne_nil spaced
  rw [List.cons_append, takeWhile_append_cons letters (isWord_of_isBlank (blank c List.mem_cons_self))]

/-- Of some words the one with blanks behind it is read. -/
theorem readSpaced?_of_word (letters : ∀ word ∈ words, ∀ c ∈ word, isWord c = true) {word blanks : Text}
    (known : word ∈ words) (spaced : blanks ≠ []) (blank : ∀ c ∈ blanks, isBlank c = true)
    (solid : ∀ c ∈ rest.head?, isBlank c = false) : readSpaced? words (word ++ (blanks ++ rest)) = some rest := by
  have skipped : skipBlanks1? (blanks ++ rest) = some rest :=
    skipBlanks1?_eq_some_iff.mpr ⟨blanks, spaced, blank, rfl, solid⟩
  cases found : readSpaced? words (word ++ (blanks ++ rest)) with
  | none =>
    have failed := List.findSome?_eq_none_iff.mp found word known
    rw [after?_eq_some_iff.mpr rfl, Option.bind_some, skipped] at failed
    cases failed
  | some behind =>
    -- another word cannot have been read, since both end where the word characters do
    obtain ⟨other, listed, gap, filled, clear, shape, stops⟩ := readSpaced?_spec found
    have same := congrArg (List.takeWhile isWord) shape
    rw [takeWhile_word (letters word known) spaced blank, takeWhile_word (letters other listed) filled clear] at same
    subst same
    rw [List.append_cancel_left shape] at skipped
    have again := skipBlanks1?_eq_some_iff.mpr ⟨gap, filled, clear, rfl, stops⟩
    exact again.symm.trans skipped

theorem letters_typeModifiers : ∀ word ∈ typeModifiers, ∀ c ∈ word, isWord c = true := by decide

theorem letters_typeKeywords : ∀ word ∈ typeKeywords, ∀ c ∈ word, isWord c = true := by decide

theorem suffix_of_readSpaced? (text rest : Text) (found : readSpaced? words text = some rest) : rest <:+ text := by
  obtain ⟨word, -, blanks, -, -, rfl, -⟩ := readSpaced?_spec found
  exact (List.suffix_append blanks rest).trans (List.suffix_append word _)

theorem length_of_readSpaced? (found : readSpaced? words text = some rest) : rest.length < text.length := by
  obtain ⟨word, -, blanks, spaced, -, rfl, -⟩ := readSpaced?_spec found
  have filled := List.length_pos_iff.mpr spaced
  rw [List.length_append, List.length_append]
  omega

theorem skipAll_readSpaced?_of_some (found : readSpaced? words text = some rest) :
    skipAll (readSpaced? words) text = skipAll (readSpaced? words) rest := by
  conv => lhs; rw [skipAll, found]
  exact if_pos (length_of_readSpaced? found)

theorem skipAll_readSpaced?_of_none (fails : readSpaced? words text = none) :
    skipAll (readSpaced? words) text = text := by
  rw [skipAll, fails]

end Words

section Grammar

variable {text : Text}

/-- A declaration starts with a word. -/
theorem Declares.head (declares : Declares text) : ∃ c cs, text = c :: cs ∧ isWord c = true := by
  have starts : ∀ {words : List Text}, (∀ word ∈ words, word ≠ [] ∧ ∀ c ∈ word, isWord c = true) →
      ∀ word ∈ words, ∀ rest, ∃ c cs, word ++ rest = c :: cs ∧ isWord c = true := by
    intro words letters word known rest
    obtain ⟨filled, word⟩ := letters word known
    obtain ⟨c, cs, rfl⟩ := List.exists_cons_of_ne_nil filled
    exact ⟨c, cs ++ rest, rfl, word c List.mem_cons_self⟩
  cases declares with
  | keyword known spaced blank named => exact starts (by decide) _ known _
  | modifier known spaced blank onward => exact starts (by decide) _ known _

theorem Declares.solid (declares : Declares text) : ∀ c ∈ text.head?, isBlank c = false := by
  obtain ⟨c, cs, rfl, word⟩ := declares.head
  rintro d ⟨⟩
  exact isBlank_of_isWord word

/-- A keyword is no modifier. -/
theorem readSpaced?_typeModifiers_of_keyword {word blanks : Text} (known : word ∈ typeKeywords) (spaced : blanks ≠ [])
    (blank : ∀ c ∈ blanks, isBlank c = true) (rest : Text) :
    readSpaced? typeModifiers (word ++ (blanks ++ rest)) = none := by
  rw [Option.eq_none_iff_forall_ne_some]
  intro behind found
  obtain ⟨other, listed, gap, filled, clear, shape, -⟩ := readSpaced?_spec found
  have same := congrArg (List.takeWhile isWord) shape
  rw [takeWhile_word (letters_typeKeywords word known) spaced blank,
    takeWhile_word (letters_typeModifiers other listed) filled clear] at same
  have apart : ∀ keyword ∈ typeKeywords, ∀ modifier ∈ typeModifiers, keyword ≠ modifier := by decide
  exact apart word known other listed same

theorem declaresType_iff :
    declaresType text = true ↔ ∃ word ∈ typeKeywords, ∃ (blanks : Text) (c : Char) (rest : Text),
      blanks ≠ [] ∧ (∀ d ∈ blanks, isBlank d = true) ∧ isWord c = true ∧ text = word ++ (blanks ++ c :: rest) := by
  constructor
  · intro declares
    unfold declaresType at declares
    split at declares
    · rename_i behind found
      obtain ⟨word, known, blanks, spaced, blank, rfl, -⟩ := readSpaced?_spec found
      cases behind with
      | nil => cases declares
      | cons c rest => exact ⟨word, known, blanks, c, rest, spaced, blank, declares, rfl⟩
    · cases declares
  · rintro ⟨word, known, blanks, c, rest, spaced, blank, named, rfl⟩
    have solid : ∀ d ∈ (c :: rest).head?, isBlank d = false := by
      rintro d ⟨⟩
      exact isBlank_of_isWord named
    rw [declaresType, readSpaced?_of_word letters_typeKeywords known spaced blank solid]
    exact named

/-- Skipping modifiers comes to a keyword with a name exactly in a declaration. -/
theorem declaresType_skipAll_iff :
    declaresType (skipAll (readSpaced? typeModifiers) text) = true ↔ Declares text := by
  constructor
  · intro declares
    fun_induction skipAll (readSpaced? typeModifiers) text with
    | case1 text rest found shorter ih =>
      obtain ⟨word, known, blanks, spaced, blank, rfl, -⟩ := readSpaced?_spec found
      exact .modifier known spaced blank (ih declares)
    | case2 text rest found notShorter => exact absurd (length_of_readSpaced? found) notShorter
    | case3 text fails =>
      obtain ⟨word, known, blanks, c, rest, spaced, blank, named, rfl⟩ := declaresType_iff.mp declares
      exact .keyword known spaced blank named
  · intro declares
    induction declares with
    | @keyword word blanks rest c known spaced blank named =>
      rw [skipAll_readSpaced?_of_none (readSpaced?_typeModifiers_of_keyword known spaced blank _)]
      exact declaresType_iff.mpr ⟨word, known, blanks, c, rest, spaced, blank, named, rfl⟩
    | modifier known spaced blank onward ih =>
      rwa [skipAll_readSpaced?_of_some (readSpaced?_of_word letters_typeModifiers known spaced blank onward.solid)]

theorem typeDeclarationAt?_of_unmarked (plain : (text.dropWhile isSpaceOrTab).head? ≠ some '@') :
    typeDeclarationAt? text =
      let declaration := skipAll (readSpaced? typeModifiers) (text.dropWhile isSpaceOrTab)
      if declaresType declaration then some declaration else none := by
  rw [typeDeclarationAt?, skipAnnotations_of_unmarked plain]

/-- A line without annotations declares a type exactly when a declaration stands behind its indentation. -/
theorem isSome_typeDeclarationAt?_iff (unmarked : '@' ∉ text) :
    (typeDeclarationAt? text).isSome = true ↔
      ∃ indent declaration, text = indent ++ declaration ∧ (∀ c ∈ indent, isSpaceOrTab c = true) ∧
        Declares declaration := by
  rw [typeDeclarationAt?_of_unmarked (head?_dropWhile_ne unmarked)]
  simp only [Option.isSome_ite, declaresType_skipAll_iff]
  constructor
  · intro declares
    exact ⟨_, _, List.takeWhile_append_dropWhile.symm, fun c => List.mem_takeWhile_imp, declares⟩
  · rintro ⟨indent, declaration, rfl, spaces, declares⟩
    obtain ⟨c, cs, rfl, word⟩ := declares.head
    rwa [dropWhile_append_cons spaces (isSpaceOrTab_of_solid (isBlank_of_isWord word))]

theorem suffix_of_skipBlanks1? (text rest : Text) (found : skipBlanks1? text = some rest) : rest <:+ text := by
  obtain ⟨blanks, -, -, rfl, -⟩ := skipBlanks1?_eq_some_iff.mp found
  exact List.suffix_append blanks rest

theorem suffix_of_readAnnotated? {inName : Char → Bool} (text rest : Text)
    (found : readAnnotated? inName text = some rest) : rest <:+ text := by
  unfold readAnnotated? at found
  split at found
  · rename_i c cs
    split at found
    · have behind := (suffix_of_skipBlanks1? _ _ found).trans (suffix_of_skipArguments _)
      exact behind.trans ((List.dropWhile_suffix inName).trans
        ((List.suffix_cons c cs).trans (List.suffix_cons '@' (c :: cs))))
    · cases found
  · cases found

/-- The keyword that is found stands in the line, with a name behind it. -/
theorem typeDeclarationAt?_spec {keyword : Text} (found : typeDeclarationAt? text = some keyword) :
    keyword <:+ text ∧ declaresType keyword = true := by
  unfold typeDeclarationAt? at found
  dsimp only at found
  split at found
  · rename_i declares
    cases found
    refine ⟨(skipAll_suffix suffix_of_readSpaced? _).trans ?_, declares⟩
    exact (skipAll_suffix suffix_of_readAnnotated? _).trans (List.dropWhile_suffix isSpaceOrTab)
  · cases found

end Grammar

section Boundary

variable {c : Char} (solid : isBlank c = false) (boundary : isWord c = false)

include solid

theorem readSpaced?_append {words : List Text} (outside : ∀ word ∈ words, c ∉ word) (text rest : Text) :
    readSpaced? words (text ++ c :: rest) = (readSpaced? words text).map (· ++ c :: rest) := by
  unfold readSpaced?
  induction words with
  | nil => rfl
  | cons word words ih =>
    obtain ⟨here, others⟩ := List.forall_mem_cons.mp outside
    have first : (after? word (text ++ c :: rest)).bind skipBlanks1? =
        ((after? word text).bind skipBlanks1?).map (· ++ c :: rest) := by
      rw [after?_append here, Option.bind_map, Option.map_bind]
      exact Option.bind_congr fun behind _ => skipBlanks1?_append solid behind rest
    rw [List.findSome?_cons, List.findSome?_cons, first, ih others]
    cases (after? word text).bind skipBlanks1? with
    | none => rfl
    | some behind => rfl

include boundary

theorem readSpaced?_typeModifiers_append (text rest : Text) :
    readSpaced? typeModifiers (text ++ c :: rest) = (readSpaced? typeModifiers text).map (· ++ c :: rest) := by
  refine readSpaced?_append solid (fun word known => ?_) text rest
  exact not_mem_of_isWord boundary (letters_typeModifiers word known)

theorem declaresType_append (text rest : Text) : declaresType (text ++ c :: rest) = declaresType text := by
  have outside : ∀ word ∈ typeKeywords, c ∉ word := fun word known =>
    not_mem_of_isWord boundary (letters_typeKeywords word known)
  rw [declaresType, declaresType, readSpaced?_append solid outside]
  cases readSpaced? typeKeywords text with
  | none => rfl
  | some behind => exact startsWithWord_append boundary behind rest

omit solid boundary in
/-- A text without an at sign has no annotations. -/
theorem readAnnotated?_append_of_unmarked {text : Text} (unmarked : '@' ∉ text) (sign : c ≠ '@') (rest : Text) :
    readAnnotated? isWord (text ++ c :: rest) = (readAnnotated? isWord text).map (· ++ c :: rest) := by
  have here : text.head? ≠ some '@' := fun head => unmarked (List.mem_of_head? head)
  have onward : (text ++ c :: rest).head? ≠ some '@' := by
    cases text with
    | nil => exact fun head => sign (Option.some.inj head)
    | cons d ds => exact here
  rw [readAnnotated?_of_unmarked here, readAnnotated?_of_unmarked onward, Option.map_none]

/-- The annotations of a closed text end in it. -/
theorem readAnnotated?_append_of_closed {text : Text} (closed : Closed text) (sign : c ≠ '@') (unopened : c ≠ '(')
    (rest : Text) :
    readAnnotated? isWord (text ++ c :: rest) = (readAnnotated? isWord text).map (· ++ c :: rest) := by
  by_cases marked : text.head? = some '@'
  · obtain ⟨name, rfl⟩ := List.head?_eq_some_iff.mp marked
    cases name with
    | nil => simp [readAnnotated?, boundary]
    | cons d ds =>
      have behind : Closed (ds.dropWhile isWord) :=
        closed.suffix ((List.dropWhile_suffix isWord).trans
          ((List.suffix_cons d ds).trans (List.suffix_cons '@' (d :: ds))))
      have head : (skipBlanks (c :: rest)).head? ≠ some '(' := by
        rw [skipBlanks, List.dropWhile_cons, solid]
        exact fun same => unopened (Option.some.inj same)
      simp only [List.cons_append, readAnnotated?]
      split
      · rw [dropWhile_append_stop boundary, skipArguments_append behind head, skipBlanks1?_append solid]
      · rfl
  · have onward : (text ++ c :: rest).head? ≠ some '@' := by
      cases text with
      | nil => exact fun head => sign (Option.some.inj head)
      | cons d ds => exact marked
    rw [readAnnotated?_of_unmarked marked, readAnnotated?_of_unmarked onward, Option.map_none]

/-- A line declares a type before a character that is neither blank nor in a word exactly when it does by itself, if
its annotations end before that character. -/
theorem typeDeclarationAt?_append {line rest : Text}
    (stable : ∀ text, text <:+ line →
      readAnnotated? isWord (text ++ c :: rest) = (readAnnotated? isWord text).map (· ++ c :: rest)) :
    typeDeclarationAt? (line ++ c :: rest) = (typeDeclarationAt? line).map (· ++ c :: rest) := by
  have annotations := skipAll_append suffix_of_readAnnotated? fun text suffix =>
    stable text (suffix.trans (List.dropWhile_suffix isSpaceOrTab))
  rw [typeDeclarationAt?, typeDeclarationAt?, dropWhile_append_stop (isSpaceOrTab_of_solid solid), skipAnnotations,
    skipAnnotations, annotations,
    skipAll_append suffix_of_readSpaced? fun text _ => readSpaced?_typeModifiers_append solid boundary text rest]
  simp only [declaresType_append solid boundary]
  split
  · rfl
  · rfl

theorem typeDeclarationAt?_append_of_unmarked {line : Text} (unmarked : '@' ∉ line) (sign : c ≠ '@') (rest : Text) :
    typeDeclarationAt? (line ++ c :: rest) = (typeDeclarationAt? line).map (· ++ c :: rest) :=
  typeDeclarationAt?_append solid boundary fun _ suffix =>
    readAnnotated?_append_of_unmarked (fun member => unmarked (suffix.subset member)) sign rest

theorem typeDeclarationAt?_append_of_closed {line : Text} (closed : Closed line) (sign : c ≠ '@') (unopened : c ≠ '(')
    (rest : Text) : typeDeclarationAt? (line ++ c :: rest) = (typeDeclarationAt? line).map (· ++ c :: rest) :=
  typeDeclarationAt?_append solid boundary fun _ suffix =>
    readAnnotated?_append_of_closed solid boundary (closed.suffix suffix) sign unopened rest

end Boundary

section Search

variable {front back text : Text} {offset found : Nat} {lineStart : Bool}

theorem typeDeclarationAt?_nil : typeDeclarationAt? [] = none := by
  rw [Option.eq_none_iff_forall_ne_some]
  intro keyword found
  obtain ⟨suffix, declares⟩ := typeDeclarationAt?_spec found
  rw [List.suffix_nil.mp suffix] at declares
  cases declares

theorem typeDeclarationFrom_add (offset more : Nat) (lineStart : Bool) (text : Text) :
    typeDeclarationFrom (offset + more) lineStart text =
      (typeDeclarationFrom offset lineStart text).map (· + more) := by
  induction text generalizing offset lineStart with
  | nil => rfl
  | cons c cs ih =>
    rw [typeDeclarationFrom, typeDeclarationFrom]
    split
    · rw [Option.map_some, Nat.add_right_comm]
    · rw [Nat.add_right_comm, ih]

/-- A search goes on behind a text over whose end no declaration is read. -/
theorem typeDeclarationFrom_append
    (stable : ∀ line, line <:+ front → typeDeclarationAt? (line ++ back) = (typeDeclarationAt? line).map (· ++ back))
    (offset : Nat) (lineStart : Bool) :
    typeDeclarationFrom offset lineStart (front ++ back) =
      (typeDeclarationFrom offset lineStart front).or (typeDeclarationFrom (offset + bytes front) false back) := by
  induction front generalizing offset lineStart with
  | nil =>
    -- no declaration starts with the text behind, so it does not matter whether a line does
    have fails := stable [] (List.suffix_refl _)
    rw [typeDeclarationAt?_nil, List.nil_append, Option.map_none] at fails
    cases back with
    | nil => rfl
    | cons d ds => simp [typeDeclarationFrom, fails]
  | cons c cs ih =>
    have here := stable (c :: cs) (List.suffix_refl _)
    have onward := ih (fun line suffix => stable line (suffix.trans (List.suffix_cons c cs)))
      (offset + c.utf8Size) (c == '\n')
    rw [bytes_cons, ← Nat.add_assoc, List.cons_append, typeDeclarationFrom, typeDeclarationFrom, ← List.cons_append,
      here]
    cases lineStart with
    | false => exact onward
    | true =>
      cases typeDeclarationAt? (c :: cs) with
      | none => exact onward
      | some keyword => simp only [if_true, Option.map_some, upTo_append_append, Option.some_or]

/-- The offset that a search finds is that of a keyword with a name behind it. -/
theorem typeDeclarationFrom_spec (declared : typeDeclarationFrom offset lineStart text = some found) :
    ∃ front keyword, text = front ++ keyword ∧ declaresType keyword = true ∧ found = offset + bytes front := by
  induction text generalizing offset lineStart with
  | nil => cases declared
  | cons c cs ih =>
    rw [typeDeclarationFrom] at declared
    split at declared
    · rename_i keyword here
      obtain ⟨-, read⟩ : lineStart = true ∧ typeDeclarationAt? (c :: cs) = some keyword := by simpa using here
      obtain ⟨⟨front, shape⟩, declares⟩ := typeDeclarationAt?_spec read
      cases declared
      exact ⟨front, keyword, shape.symm, declares, by rw [← shape, upTo_append]⟩
    · obtain ⟨front, keyword, rfl, declares, place⟩ := ih declared
      exact ⟨c :: front, keyword, rfl, declares, by rw [place, bytes_cons, Nat.add_assoc]⟩

/-- The keyword that a search finds stands before the end of the text. -/
theorem lt_of_typeDeclarationFrom (declared : typeDeclarationFrom offset lineStart text = some found) :
    found < offset + bytes text := by
  obtain ⟨front, keyword, rfl, declares, rfl⟩ := typeDeclarationFrom_spec declared
  cases keyword with
  | nil => cases declares
  | cons c cs =>
    have size := c.utf8Size_pos
    rw [bytes_append, bytes_cons]
    omega

/-- No keyword stands among the blanks at the end of a text. -/
theorem le_of_typeDeclarationOffset_append_blanks {blanks : Text} (blank : ∀ c ∈ blanks, isBlank c = true)
    (declared : typeDeclarationOffset (text ++ blanks) = some found) : found ≤ bytes text := by
  obtain ⟨before, keyword, shape, declares, rfl⟩ := typeDeclarationFrom_spec declared
  obtain ⟨word, known, gap, c, rest, -, -, -, rfl⟩ := declaresType_iff.mp declares
  have filled : ∀ word ∈ typeKeywords, word ≠ [] := by decide
  rcases List.append_eq_append_iff.mp shape with ⟨inside, rfl, split⟩ | ⟨inside, rfl, -⟩
  · obtain ⟨d, ds, rfl⟩ := List.exists_cons_of_ne_nil (filled word known)
    have member : d ∈ blanks := split ▸ List.mem_append_right inside List.mem_cons_self
    exact absurd (isBlank_of_isWord (letters_typeKeywords _ known d List.mem_cons_self)) (by simp [blank d member])
  · rw [bytes_append]
    omega

/-- What a closed text declares, it declares with more text behind it. -/
theorem typeDeclarationOffset_append {c : Char} (solid : isBlank c = false) (boundary : isWord c = false)
    (sign : c ≠ '@') (unopened : c ≠ '(') (closed : Closed front)
    (declared : typeDeclarationOffset front = some found) (rest : Text) :
    typeDeclarationOffset (front ++ c :: rest) = some found := by
  rw [typeDeclarationOffset, typeDeclarationFrom_append, ← typeDeclarationOffset, declared, Option.some_or]
  exact fun line suffix => typeDeclarationAt?_append_of_closed solid boundary (closed.suffix suffix) sign unopened rest

/-- A search finds nothing exactly if no line declares a type: neither the one that the text starts, if it starts one,
nor a later one. -/
theorem typeDeclarationFrom_eq_none_iff :
    typeDeclarationFrom offset lineStart text = none ↔
      (lineStart = true → typeDeclarationAt? text = none) ∧
        ∀ line, '\n' :: line <:+ text → typeDeclarationAt? line = none := by
  induction text generalizing offset lineStart with
  | nil => simp [typeDeclarationFrom, typeDeclarationAt?_nil]
  | cons c cs ih =>
    have onward : (∀ line, '\n' :: line <:+ c :: cs → typeDeclarationAt? line = none) ↔
        (c = '\n' → typeDeclarationAt? cs = none) ∧ ∀ line, '\n' :: line <:+ cs → typeDeclarationAt? line = none := by
      simp only [List.suffix_cons_iff, List.cons.injEq]
      constructor
      · intro silent
        exact ⟨fun feed => silent cs (.inl ⟨feed.symm, rfl⟩), fun line suffix => silent line (.inr suffix)⟩
      · rintro ⟨first, others⟩ line (⟨feed, rfl⟩ | suffix)
        · exact first feed.symm
        · exact others line suffix
    have behind := @ih (offset + c.utf8Size) (c == '\n')
    rw [beq_iff_eq] at behind
    rw [onward, typeDeclarationFrom]
    cases lineStart with
    | false => simpa using behind
    | true =>
      cases typeDeclarationAt? (c :: cs) with
      | none => simpa using behind
      | some keyword => simp

/-- In a text without annotations a search from within a line finds nothing exactly if no later line is a declaration.
-/
theorem typeDeclarationFrom_false_eq_none_iff (unmarked : '@' ∉ text) :
    typeDeclarationFrom offset false text = none ↔ ¬ DeclaresInLine text := by
  have lines : ∀ line, '\n' :: line <:+ text → '@' ∉ line := fun line suffix member =>
    unmarked (suffix.subset (List.mem_cons_of_mem _ member))
  rw [typeDeclarationFrom_eq_none_iff, and_iff_right Bool.false_ne_true.elim]
  constructor
  · rintro silent ⟨front, indent, declaration, rfl, spaces, declares⟩
    have suffix := List.suffix_append front ('\n' :: (indent ++ declaration))
    have found := (isSome_typeDeclarationAt?_iff (lines _ suffix)).mpr ⟨indent, declaration, rfl, spaces, declares⟩
    rw [silent _ suffix] at found
    cases found
  · intro prose line suffix
    rw [← Option.not_isSome_iff_eq_none, isSome_typeDeclarationAt?_iff (lines line suffix)]
    rintro ⟨indent, declaration, rfl, spaces, declares⟩
    obtain ⟨front, shape⟩ := suffix
    exact prose ⟨front, indent, declaration, shape.symm, spaces, declares⟩

end Search

end Java

end RouteComments
