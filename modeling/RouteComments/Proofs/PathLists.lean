import RouteComments.Proofs.Searches

set_option autoImplicit false

namespace RouteComments.Mapping

open Text Java

/-- A path literal as an element of a list: blanks, the literal and blanks. -/
structure Listed where
  before : Text
  path : Text
  after : Text
  blankBefore : ∀ c ∈ before, isBlank c = true
  blankAfter : ∀ c ∈ after, isBlank c = true
  unquoted : '"' ∉ path
  solidStart : ∀ c ∈ path.head?, isBlank c = false
  solidEnd : ∀ c ∈ path.getLast?, isBlank c = false

def Listed.text (element : Listed) : Text :=
  element.before ++ (quote element.path ++ element.after)

def listText (elements : List Listed) : Text :=
  joinWith [','] (elements.map (·.text))

section Splitting

/-- Text without quotes, commas and braces goes to the first element. -/
theorem splitList_append_plain {front back first : Text} {rest : List Text}
    (plain : ∀ c ∈ front, c ≠ '"' ∧ c ≠ ',' ∧ c ≠ '}') (parts : splitList false back = first :: rest) :
    splitList false (front ++ back) = (front ++ first) :: rest := by
  induction front with
  | nil => exact parts
  | cons c cs ih =>
    obtain ⟨⟨noQuote, noComma, noBrace⟩, others⟩ := List.forall_mem_cons.mp plain
    rw [List.cons_append, splitList, if_neg noQuote, ih others]
    simp [noComma, noBrace, consFirst]

/-- The inside of a literal goes to the first element, whatever it says. -/
theorem splitList_append_inside {front back first : Text} {rest : List Text} (unquoted : '"' ∉ front)
    (parts : splitList true back = first :: rest) :
    splitList true (front ++ back) = (front ++ first) :: rest := by
  induction front with
  | nil => exact parts
  | cons c cs ih =>
    obtain ⟨different, others⟩ := List.ne_and_not_mem_of_not_mem_cons unquoted
    rw [List.cons_append, splitList, if_neg different.symm, ih others]
    simp [consFirst]

theorem splitList_append_quote {path back first : Text} {rest : List Text} (unquoted : '"' ∉ path)
    (parts : splitList false back = first :: rest) :
    splitList false (quote path ++ back) = (quote path ++ first) :: rest := by
  have closing : splitList true ('"' :: back) = ('"' :: first) :: rest := by
    simp [splitList, parts, consFirst]
  have inside := splitList_append_inside unquoted closing
  rw [quote_append, splitList, if_pos rfl, Bool.not_false, inside, quote_append]
  rfl

theorem not_mem_of_blank {text : Text} (blank : ∀ c ∈ text, isBlank c = true) {c : Char} (solid : isBlank c = false) :
    c ∉ text := by
  intro member
  rw [blank c member] at solid
  cases solid

theorem plain_of_blank {text : Text} (blank : ∀ c ∈ text, isBlank c = true) :
    ∀ c ∈ text, c ≠ '"' ∧ c ≠ ',' ∧ c ≠ '}' := by
  intro c member
  refine ⟨?_, ?_, ?_⟩ <;>
  · rintro rfl
    exact not_mem_of_blank blank (by decide) member

theorem splitList_append_element (element : Listed) {back first : Text} {rest : List Text}
    (parts : splitList false back = first :: rest) :
    splitList false (element.text ++ back) = (element.text ++ first) :: rest := by
  have behind := splitList_append_plain (plain_of_blank element.blankAfter) parts
  have literal := splitList_append_quote element.unquoted behind
  have whole := splitList_append_plain (plain_of_blank element.blankBefore) literal
  simpa only [Listed.text, List.append_assoc] using whole

/-- A written list splits into its elements at the commas between them, up to its closing brace. -/
theorem splitList_listText {elements : List Listed} (filled : elements ≠ []) (trailing : Text) :
    splitList false (listText elements ++ '}' :: trailing) = elements.map (·.text) := by
  induction elements with
  | nil => exact absurd rfl filled
  | cons element rest ih =>
    cases rest with
    | nil =>
      have closing : splitList false ('}' :: trailing) = [[]] := by
        simp [splitList]
      have last := splitList_append_element element closing
      rw [List.append_nil] at last
      exact last
    | cons next rest =>
      have others := ih (List.cons_ne_nil _ _)
      have comma : splitList false (',' :: (listText (next :: rest) ++ '}' :: trailing)) =
          [] :: (next :: rest).map (·.text) := by
        rw [← others]
        simp [splitList]
      have first := splitList_append_element element comma
      rw [List.append_nil] at first
      simpa [listText, joinWith] using first

end Splitting

section Elements

theorem trim_text (element : Listed) : trim element.text = quote element.path := by
  refine dropAround_append element.blankBefore element.blankAfter ?_ ?_
  · intro c first
    cases first
    decide
  · intro c last
    rw [quote, ← List.cons_append, List.getLast?_concat] at last
    cases last
    decide

theorem elementPath_quote (element : Listed) : elementPath (quote element.path) = element.path := by
  have different : ∀ c ∈ element.path, (c == '"') = false := by
    intro c member
    exact beq_false_of_ne fun same => element.unquoted (same ▸ member)
  have bare : dropAround (· == '"') (['"'] ++ (element.path ++ ['"'])) = element.path := by
    refine dropAround_append (by simp) (by simp) ?_ ?_
    · exact fun c first => different c (List.mem_of_head? first)
    · exact fun c last => different c (List.mem_of_getLast? last)
  have trimmed : dropAround isBlank ([] ++ (element.path ++ [])) = element.path :=
    dropAround_append (by simp) (by simp) element.solidStart element.solidEnd
  rw [List.append_nil, List.nil_append] at trimmed
  rw [List.singleton_append, ← quote] at bare
  rw [elementPath, bare, trim, trimmed]

/-- The paths of a written list are the paths of its elements. -/
theorem listPaths_listText {elements : List Listed} (filled : elements ≠ []) (trailing : Text) :
    listPaths (listText elements ++ '}' :: trailing) = elements.map (·.path) := by
  have trimmed : (elements.map (·.text)).map trim = elements.map fun element => quote element.path := by
    rw [List.map_map]
    exact List.map_congr_left fun element _ => trim_text element
  have solid : (elements.map fun element => quote element.path).filter (!·.isEmpty) =
      elements.map fun element => quote element.path := by
    rw [List.filter_eq_self]
    intro text member
    obtain ⟨element, -, rfl⟩ := List.mem_map.mp member
    rfl
  rw [listPaths, splitList_listText filled, trimmed, solid, List.map_map]
  exact List.map_congr_left fun element _ => elementPath_quote element

end Elements

theorem extractPaths_of_listBody? {args body : Text} (found : listBody? args = some body) :
    extractPaths args = if listPaths body = [] then [singlePath args] else listPaths body := by
  unfold extractPaths
  rw [found, Option.map_some, Option.getD_some]
  split
  · rename_i empty
    rw [if_pos empty]
  · rename_i filled
    rw [if_neg filled]

section Keyed

/-- A keyed list is found at the start of the arguments, and what stands behind it makes no difference. -/
theorem listBody?_of_written {key before after rest : Text} (known : key ∈ pathKeys)
    (blankBefore : ∀ c ∈ before, isBlank c = true) (blankAfter : ∀ c ∈ after, isBlank c = true) :
    listBody? (key ++ (before ++ '=' :: (after ++ '{' :: rest))) = some rest := by
  have solid : isBlank '{' = false := by decide
  have equals := keyEquals?_of_written key blankBefore blankAfter solid rest
  have list : keyedList? (key ++ (before ++ '=' :: (after ++ '{' :: rest))) = some rest := by
    simp only [pathKeys, List.mem_cons, List.not_mem_nil, or_false] at known
    rcases known with rfl | rfl
    · rw [keyedList?, pathKeys, List.findSome?_cons, equals]
      rfl
    · have other : keyEquals? "path".toList ("value".toList ++ (before ++ '=' :: (after ++ '{' :: rest))) = none := rfl
      rw [keyedList?, pathKeys, List.findSome?_cons, other, Option.bind_none, List.findSome?_cons, equals]
      rfl
  rw [listBody?, firstAtWord?_of_read list]

/-- The paths of a list behind a path key are read back in order, whatever the elements and the text behind the list
say. -/
theorem keyed_paths_read_back {key before after : Text} (known : key ∈ pathKeys)
    (blankBefore : ∀ c ∈ before, isBlank c = true) (blankAfter : ∀ c ∈ after, isBlank c = true)
    (elements : List Listed) (filled : elements ≠ []) (trailing : Text) :
    extractPaths (key ++ (before ++ '=' :: (after ++ '{' :: (listText elements ++ '}' :: trailing)))) =
      elements.map (·.path) := by
  rw [extractPaths_of_listBody? (listBody?_of_written known blankBefore blankAfter),
    listPaths_listText filled, if_neg (by simpa using filled)]

def filmElement : Listed where
  before := " ".toList
  path := "/films/\x7bid\x7d".toList
  after := []
  blankBefore := by decide
  blankAfter := by decide
  unquoted := by decide
  solidStart := by decide
  solidEnd := by decide

def keyLikeElement : Listed where
  before := []
  path := "/a,b/path = x".toList
  after := "\n".toList
  blankBefore := by decide
  blankAfter := by decide
  unquoted := by decide
  solidStart := by decide
  solidEnd := by decide

/-- Two elements with blanks around them, read behind a key and before another list. -/
theorem filmList_read_back :
    "value".toList ∈ pathKeys ∧ (∀ c ∈ " ".toList, isBlank c = true) ∧ [filmElement, keyLikeElement] ≠ [] ∧
      extractPaths ("value".toList ++ (" ".toList ++ '=' :: (" ".toList ++ '{' ::
        (listText [filmElement, keyLikeElement] ++ '}' :: ", path = \x7b\"/z\"\x7d".toList)))) =
        ["/films/\x7bid\x7d".toList, "/a,b/path = x".toList] := by
  have known : "value".toList ∈ pathKeys := by decide
  have blank : ∀ c ∈ " ".toList, isBlank c = true := by decide
  have filled : [filmElement, keyLikeElement] ≠ [] := List.cons_ne_nil _ _
  exact ⟨known, blank, filled, keyed_paths_read_back known blank blank _ filled _⟩

end Keyed

section Stray

/-- The text behind the opening brace of a list for a path key that stands inside a literal. -/
def strayList? (literal : Text) : Option Text :=
  firstAtWord? keyedList? false literal

/-- Whether a list is closed, behind blanks and commas, before it has an element. -/
def closesEmpty (body : Text) : Bool :=
  (body.dropWhile fun c => isBlank c || c == ',').head? == some '}'

theorem keyedList?_spec {text body : Text} (found : keyedList? text = some body) :
    '=' ∈ text ∧ '{' :: body <:+ text := by
  obtain ⟨key, -, success⟩ := List.exists_of_findSome?_eq_some found
  obtain ⟨behind, equals, opened⟩ := Option.bind_eq_some_iff.mp success
  obtain ⟨front, holds, rfl⟩ := keyEquals?_spec equals
  unfold openBrace? at opened
  split at opened
  · cases opened
    exact ⟨List.mem_append_left _ holds, List.suffix_append _ _⟩
  · cases opened

theorem suffix_of_search {inside : Bool} {text body : Text}
    (found : firstAtWord? keyedList? inside text = some body) : '{' :: body <:+ text := by
  obtain ⟨back, suffix, read⟩ := exists_suffix_of_firstAtWord? found
  exact (keyedList?_spec read).2.trans suffix

theorem search_eq_none {text : Text} (plain : '=' ∉ text) (inside : Bool) :
    firstAtWord? keyedList? inside text = none := by
  rw [Option.eq_none_iff_forall_ne_some]
  intro body found
  obtain ⟨back, suffix, read⟩ := exists_suffix_of_firstAtWord? found
  exact plain (suffix.subset (keyedList?_spec read).1)

theorem keyEquals?_append {key : Text} (outside : '"' ∉ key) (text rest : Text) :
    keyEquals? key (text ++ '"' :: rest) = (keyEquals? key text).map (· ++ '"' :: rest) := by
  have solid : isBlank '"' = false := by decide
  have skipped : ∀ behind, skipBlanks (behind ++ '"' :: rest) = skipBlanks behind ++ '"' :: rest :=
    fun behind => dropWhile_append_stop solid behind rest
  unfold keyEquals?
  rw [after?_append outside]
  cases after? key text with
  | none => rfl
  | some behind =>
    simp only [Option.map_some, skipped]
    cases skipBlanks behind with
    | nil => rfl
    | cons c cs =>
      by_cases equals : c = '='
      · subst equals
        exact congrArg some (skipped cs)
      · simp [equals]

theorem keyedList?_append (text rest : Text) :
    keyedList? (text ++ '"' :: rest) = (keyedList? text).map (· ++ '"' :: rest) := by
  have opened : ∀ behind : Text, openBrace? (behind ++ '"' :: rest) = (openBrace? behind).map (· ++ '"' :: rest) := by
    intro behind
    cases behind with
    | nil => rfl
    | cons c cs =>
      by_cases brace : c = '{'
      · subst brace
        rfl
      · simp [openBrace?, brace]
  have each : ∀ key : Text, '"' ∉ key → (keyEquals? key (text ++ '"' :: rest)).bind openBrace? =
      ((keyEquals? key text).bind openBrace?).map (· ++ '"' :: rest) := by
    intro key outside
    rw [keyEquals?_append outside]
    cases keyEquals? key text with
    | none => rfl
    | some behind => exact opened behind
  simp only [keyedList?, pathKeys, List.findSome?_cons, List.findSome?_nil, each _ (show '"' ∉ "path".toList by decide),
    each _ (show '"' ∉ "value".toList by decide)]
  cases (keyEquals? "path".toList text).bind openBrace? with
  | some body => rfl
  | none => cases (keyEquals? "value".toList text).bind openBrace? <;> rfl

/-- A quote ends every keyed list before it and starts the search anew. -/
theorem search_append_quote (inside : Bool) (text rest : Text) :
    firstAtWord? keyedList? inside (text ++ '"' :: rest) =
      ((firstAtWord? keyedList? inside text).map (· ++ '"' :: rest)).or (firstAtWord? keyedList? false rest) :=
  firstAtWord?_append_boundary (by decide) rfl (fun text => keyedList?_append text rest) inside text

/-- A search through a literal finds the list inside it, or goes on behind it. -/
theorem search_append_literal {front : Text} (plain : '=' ∉ front) (literal back : Text) :
    firstAtWord? keyedList? false (front ++ (quote literal ++ back)) =
      ((strayList? literal).map (· ++ '"' :: back)).or (firstAtWord? keyedList? false back) := by
  rw [quote_append, search_append_quote, search_eq_none plain, Option.map_none, Option.none_or, search_append_quote]
  rfl

end Stray

section Mistaken

theorem listPaths_eq_nil_iff {body : Text} :
    listPaths body = [] ↔ ∀ c ∈ (splitList false body).flatten, isBlank c = true := by
  rw [listPaths, List.map_eq_nil_iff, List.filter_eq_nil_iff, List.forall_mem_map]
  simp only [trim, Bool.not_eq_eq_eq_not, Bool.not_true, Bool.not_eq_false, List.isEmpty_iff, dropAround_eq_nil_iff,
    List.mem_flatten, forall_exists_index, and_imp]
  exact ⟨fun all c element member inside => all element member c inside,
    fun all element member c inside => all c element member inside⟩

/-- A list that starts inside a literal has no paths exactly if it is closed there before an element: else the quote
behind the literal belongs to one. -/
theorem listPaths_stray_eq_nil_iff {body : Text} (unquoted : '"' ∉ body) (back : Text) :
    listPaths (body ++ '"' :: back) = [] ↔ closesEmpty body = true := by
  rw [listPaths_eq_nil_iff]
  induction body with
  | nil =>
    have solid : isBlank '"' = false := by decide
    simp [splitList, flatten_consFirst, closesEmpty, solid]
  | cons c cs ih =>
    obtain ⟨different, others⟩ := List.ne_and_not_mem_of_not_mem_cons unquoted
    have behind := ih others
    rw [List.cons_append, splitList, if_neg different.symm]
    by_cases comma : c = ','
    · simpa [comma, closesEmpty] using behind
    · by_cases brace : c = '}'
      · have solid : isBlank '}' = false := by decide
        simp [brace, closesEmpty, solid]
      · cases blank : isBlank c with
        | true => simpa [comma, brace, blank, flatten_consFirst, closesEmpty] using behind
        | false => simp [comma, brace, blank, flatten_consFirst, closesEmpty]

theorem splitList_sublist (quoted : Bool) (body : Text) : (splitList quoted body).flatten.Sublist body := by
  induction body generalizing quoted with
  | nil => exact List.Sublist.refl []
  | cons c cs ih =>
    rw [splitList]
    split
    · rw [flatten_consFirst]
      exact (ih _).cons_cons c
    · split
      · exact (ih _).cons c
      · split
        · exact List.nil_sublist _
        · rw [flatten_consFirst]
          exact (ih _).cons_cons c

theorem sublist_flatten_map {f : Text → Text} (shorter : ∀ text, (f text).Sublist text) (texts : List Text) :
    (texts.map f).flatten.Sublist texts.flatten := by
  induction texts with
  | nil => exact List.Sublist.refl []
  | cons text rest ih => exact (shorter text).append ih

/-- The paths of a list are cut out of its body one behind the other. -/
theorem listPaths_sublist (body : Text) : (listPaths body).flatten.Sublist body := by
  have bare : ∀ text, (elementPath text).Sublist text :=
    fun text => (dropAround_sublist _).trans (dropAround_sublist text)
  have elements := sublist_flatten_map bare (((splitList false body).map trim).filter (!·.isEmpty))
  rw [List.flatten_filter_not_isEmpty] at elements
  have trimmed := sublist_flatten_map (dropAround_sublist (p := isBlank)) (splitList false body)
  exact (elements.trans trimmed).trans (splitList_sublist false body)

/-- Paths that hold all opening braces of a text are not those of a list that starts at one of these braces. -/
theorem listPaths_ne_of_search {inside : Bool} {text body : Text} {paths : List Text}
    (found : firstAtWord? keyedList? inside text = some body) (braces : text.count '{' = paths.flatten.count '{') :
    listPaths body ≠ paths := by
  rintro rfl
  have opened := (suffix_of_search found).sublist.count_le '{'
  have inBody := (listPaths_sublist body).count_le '{'
  rw [List.count_cons_self] at opened
  omega

theorem count_listText {c : Char} (solid : isBlank c = false) (noQuote : c ≠ '"') (noComma : c ≠ ',')
    (elements : List Listed) : (listText elements).count c = (elements.map (·.path)).flatten.count c := by
  have one : ∀ element : Listed, element.text.count c = element.path.count c := by
    intro element
    have before := List.count_eq_zero.mpr (not_mem_of_blank element.blankBefore solid)
    have after := List.count_eq_zero.mpr (not_mem_of_blank element.blankAfter solid)
    simp [Listed.text, quote, before, after, noQuote.symm]
  induction elements with
  | nil => rfl
  | cons element rest ih =>
    cases rest with
    | nil => simpa [listText, joinWith] using one element
    | cons next rest =>
      simp only [listText, List.map_cons, joinWith, List.count_append, List.flatten_cons, one] at ih ⊢
      rw [ih, List.count_singleton, if_neg (by simpa using noComma.symm), Nat.add_zero]

/-- The literal of a text with one literal is its single path: a key behind the first quote has no literal. -/
theorem singlePath_of_quote {front path back : Text} (plain : '=' ∉ front) (unquotedFront : '"' ∉ front)
    (unquoted : '"' ∉ path) (unquotedBack : '"' ∉ back) : singlePath (front ++ (quote path ++ back)) = path := by
  have keyed : firstAtWord? (fun text => pathKeys.findSome? (keyedLiteral? · text)) false
      (front ++ (quote path ++ back)) = none := by
    rw [Option.eq_none_iff_forall_ne_some]
    intro inner found
    obtain ⟨suffix, ⟨start, split⟩, read⟩ := exists_suffix_of_firstAtWord? found
    obtain ⟨key, -, success⟩ := List.exists_of_findSome?_eq_some read
    obtain ⟨before, rest, holds, rfl⟩ := keyedLiteral?_spec success
    -- both quotes of the text are those of the literal behind the key
    have quotes := congrArg (List.count '"') split
    simp only [List.count_append, count_quote, List.count_eq_zero.mpr unquotedFront, List.count_eq_zero.mpr unquoted,
      List.count_eq_zero.mpr unquotedBack] at quotes
    have noneBefore : '"' ∉ start ++ before := by
      rw [← List.count_eq_zero, List.count_append]
      omega
    simp only [quote, List.cons_append, ← List.append_assoc start] at split
    exact plain (eq_of_append_cons noneBefore unquotedFront split ▸ List.mem_append_right start holds)
  have search := firstMatch?_append (literal?_needs.fails unquotedFront (quote path ++ back))
  rw [singlePath, keyed]
  simp only [search, firstMatch?_of_read (literal?_quote unquoted back), Option.map_some, Option.getD_some]

/-- Where a list inside a literal is taken for the one of the mapping, the paths are right only if there is one, and
the list has none. -/
theorem extractPaths_eq_iff_of_search {args text body : Text} {paths : List Text} (found : listBody? args = some body)
    (stray : firstAtWord? keyedList? false text = some body) (braces : text.count '{' = paths.flatten.count '{') :
    extractPaths args = paths ↔ listPaths body = [] ∧ [singlePath args] = paths := by
  rw [extractPaths_of_listBody? found]
  split
  · rename_i empty
    simp [empty]
  · rename_i filled
    simp [filled, listPaths_ne_of_search stray braces]

theorem listBody?_of_search {args body : Text} (found : firstAtWord? keyedList? false args = some body) :
    listBody? args = some body := by
  rw [listBody?, found]

/-- A literal whose lists, if it holds any behind a path key, have no elements. -/
def Unmistakable (literal : Text) : Prop :=
  ∀ body ∈ strayList? literal, closesEmpty body = true

instance (literal : Text) : Decidable (Unmistakable literal) :=
  inferInstanceAs (Decidable (∀ body ∈ strayList? literal, closesEmpty body = true))

/-- A literal alone, or alone in a list, is its path exactly if it is unmistakable. -/
theorem extractPaths_quote_iff {front path back : Text} (plain : '=' ∉ front) (unquotedFront : '"' ∉ front)
    (unquoted : '"' ∉ path) (plainBack : '=' ∉ back) (unquotedBack : '"' ∉ back) (closedBack : '{' ∉ back)
    (bare : strayList? path = none → extractPaths (front ++ (quote path ++ back)) = [path]) :
    extractPaths (front ++ (quote path ++ back)) = [path] ↔ Unmistakable path := by
  cases stray : strayList? path with
  | none => simp [bare stray, Unmistakable, stray]
  | some body =>
    have search : ∀ before, '=' ∉ before →
        firstAtWord? keyedList? false (before ++ (quote path ++ back)) = some (body ++ '"' :: back) := by
      intro before plainBefore
      rw [search_append_literal plainBefore, stray, search_eq_none plainBack]
      rfl
    have braces : (quote path ++ back).count '{' = [path].flatten.count '{' := by
      simp [quote, List.count_eq_zero.mpr closedBack]
    have unquotedBody : '"' ∉ body :=
      fun member => unquoted ((suffix_of_search stray).subset (List.mem_cons_of_mem _ member))
    rw [extractPaths_eq_iff_of_search (listBody?_of_search (search front plain)) (search [] List.not_mem_nil) braces,
      listPaths_stray_eq_nil_iff unquotedBody, singlePath_of_quote plain unquotedFront unquoted unquotedBack]
    simp [Unmistakable, stray]

end Mistaken

section Positional

theorem extractPaths_literal_iff {path : Text} (unquoted : '"' ∉ path) :
    extractPaths (quote path) = [path] ↔ Unmistakable path := by
  have none : ∀ c : Char, c ∉ ([] : Text) := fun c => List.not_mem_nil
  have whole : quote path = [] ++ (quote path ++ []) := by
    rw [List.nil_append, List.append_nil]
  rw [whole]
  refine extractPaths_quote_iff (none _) (none _) unquoted (none _) (none _) (none _) fun stray => ?_
  have noList : listBody? ([] ++ (quote path ++ [])) = Option.none := by
    rw [listBody?, search_append_literal (none _), stray]
    rfl
  rw [extractPaths, noList, singlePath_of_quote (none _) (none _) unquoted (none _)]
  rfl

/-- A search through a list finds nothing exactly if no literal of it holds a list. -/
theorem search_listText_eq_none_iff {front : Text} (plain : '=' ∉ front) (elements : List Listed) :
    firstAtWord? keyedList? false (front ++ (listText elements ++ ['}'])) = none ↔
      ∀ element ∈ elements, strayList? element.path = none := by
  have solid : isBlank '=' = false := by decide
  have through : ∀ (element : Listed) (back : Text),
      firstAtWord? keyedList? false (front ++ (element.text ++ back)) = none ↔
        strayList? element.path = none ∧ firstAtWord? keyedList? false (element.after ++ back) = none := by
    intro element back
    have plainFront : '=' ∉ front ++ element.before := by
      rw [List.mem_append, not_or]
      exact ⟨plain, not_mem_of_blank element.blankBefore solid⟩
    have shape : front ++ (element.text ++ back) =
        (front ++ element.before) ++ (quote element.path ++ (element.after ++ back)) := by
      simp only [Listed.text, List.append_assoc]
    rw [shape, search_append_literal plainFront, Option.or_eq_none_iff, Option.map_eq_none_iff]
  have plainBehind : ∀ (element : Listed) (c : Char), c ≠ '=' → '=' ∉ element.after ++ [c] := by
    intro element c different
    rw [List.mem_append, not_or, List.mem_singleton]
    exact ⟨not_mem_of_blank element.blankAfter solid, different.symm⟩
  match elements with
  | [] =>
    have silent : firstAtWord? keyedList? false (front ++ ['}']) = none := by
      apply search_eq_none
      simpa using plain
    simpa [listText, joinWith] using silent
  | [element] =>
    have silent := search_eq_none (plainBehind element '}' (by decide)) false
    simp [listText, joinWith, through, silent]
  | element :: next :: rest =>
    have others := search_listText_eq_none_iff (plainBehind element ',' (by decide)) (next :: rest)
    have shape : listText (element :: next :: rest) ++ ['}'] =
        element.text ++ (',' :: (listText (next :: rest) ++ ['}'])) := by
      simp [listText, joinWith]
    rw [shape, through, List.forall_mem_cons, ← others, List.append_assoc, List.singleton_append]

theorem listBody?_of_silent {elements : List Listed}
    (silent : firstAtWord? keyedList? false (['{'] ++ (listText elements ++ ['}'])) = none) :
    listBody? ('{' :: (listText elements ++ ['}'])) = some (listText elements ++ ['}']) := by
  rw [listBody?, ← List.singleton_append, silent]
  rfl

/-- A list without a key is read back exactly if no literal of it holds a list, or if its only literal is
unmistakable. -/
theorem extractPaths_list_iff {elements : List Listed} (filled : elements ≠ []) :
    extractPaths ('{' :: (listText elements ++ ['}'])) = elements.map (·.path) ↔
      (∀ element ∈ elements, strayList? element.path = none) ∨
        ∃ element, elements = [element] ∧ Unmistakable element.path := by
  have plain : '=' ∉ ['{'] := by decide
  have bare : (∀ element ∈ elements, strayList? element.path = none) →
      extractPaths ('{' :: (listText elements ++ ['}'])) = elements.map (·.path) := by
    intro silent
    have body := listBody?_of_silent ((search_listText_eq_none_iff plain elements).mpr silent)
    rw [extractPaths_of_listBody? body, listPaths_listText filled, if_neg (by simpa using filled)]
  by_cases silent : ∀ element ∈ elements, strayList? element.path = none
  · exact ⟨fun _ => .inl silent, fun _ => bare silent⟩
  · obtain ⟨element, rest, rfl⟩ := List.exists_cons_of_ne_nil filled
    cases rest with
    | nil =>
      have shape : '{' :: (listText [element] ++ ['}']) =
          ('{' :: element.before) ++ (quote element.path ++ (element.after ++ ['}'])) := by
        simp [listText, joinWith, Listed.text]
      have outsideBefore : ∀ c : Char, isBlank c = false → c ≠ '{' → c ∉ '{' :: element.before := by
        intro c solid different
        rw [List.mem_cons, not_or]
        exact ⟨different, not_mem_of_blank element.blankBefore solid⟩
      have outsideAfter : ∀ c : Char, isBlank c = false → c ≠ '}' → c ∉ element.after ++ ['}'] := by
        intro c solid different
        rw [List.mem_append, not_or, List.mem_singleton]
        exact ⟨not_mem_of_blank element.blankAfter solid, different⟩
      have alone := extractPaths_quote_iff (outsideBefore '=' (by decide) (by decide))
        (outsideBefore '"' (by decide) (by decide)) element.unquoted (outsideAfter '=' (by decide) (by decide))
        (outsideAfter '"' (by decide) (by decide)) (outsideAfter '{' (by decide) (by decide))
      rw [← shape] at alone
      have single := alone fun stray => bare (List.forall_mem_singleton.mpr stray)
      have stray : strayList? element.path ≠ none := by
        simpa using silent
      simpa [stray] using single
    | cons next rest =>
      -- the list inside the literal is the one that is read, and it has at most one path to stand for all
      have found := mt (search_listText_eq_none_iff List.not_mem_nil _).mp silent
      obtain ⟨body, search⟩ := Option.ne_none_iff_exists'.mp found
      have braces : (listText (element :: next :: rest) ++ ['}']).count '{' =
          ((element :: next :: rest).map (·.path)).flatten.count '{' := by
        rw [List.count_append, count_listText (by decide) (by decide) (by decide)]
        rfl
      have opened : firstAtWord? keyedList? false ('{' :: (listText (element :: next :: rest) ++ ['}'])) = some body :=
        search
      rw [extractPaths_eq_iff_of_search (listBody?_of_search opened) search braces]
      simpa using silent

/-- A path literal without a key is read back exactly if it is unmistakable, and a list of them exactly if no literal
holds a list behind a path key, or if there is only one and it is unmistakable. -/
theorem positional_paths_read_back_iff {path : Text} (unquoted : '"' ∉ path) {elements : List Listed}
    (filled : elements ≠ []) :
    (extractPaths (quote path) = [path] ↔ Unmistakable path) ∧
      (extractPaths ('{' :: (listText elements ++ ['}'])) = elements.map (·.path) ↔
        (∀ element ∈ elements, strayList? element.path = none) ∨
          ∃ element, elements = [element] ∧ Unmistakable element.path) :=
  ⟨extractPaths_literal_iff unquoted, extractPaths_list_iff filled⟩

/-- A literal with a placeholder alone, and in a list with one that looks like a key. -/
theorem filmLiteral_read_back :
    '"' ∉ "/films/\x7bid\x7d".toList ∧ extractPaths (quote "/films/\x7bid\x7d".toList) = ["/films/\x7bid\x7d".toList] ∧
      [filmElement, keyLikeElement] ≠ [] ∧
      extractPaths ('{' :: (listText [filmElement, keyLikeElement] ++ ['}'])) =
        ["/films/\x7bid\x7d".toList, "/a,b/path = x".toList] := by
  have unquoted : '"' ∉ "/films/\x7bid\x7d".toList := by decide
  have filled : [filmElement, keyLikeElement] ≠ [] := List.cons_ne_nil _ _
  have silent : ∀ element ∈ [filmElement, keyLikeElement], strayList? element.path = none := by decide
  obtain ⟨alone, listed⟩ := positional_paths_read_back_iff unquoted filled
  exact ⟨unquoted, alone.mpr (by decide), filled, listed.mpr (.inl silent)⟩

/-- The list that a literal holds behind a path key is taken for the list of the mapping. -/
theorem matrixLiteral_misread :
    '"' ∉ "/cars;path=\x7bid\x7d".toList ∧
      extractPaths (quote "/cars;path=\x7bid\x7d".toList) = ["id".toList] ∧
      extractPaths ("\x7b\"/cars;path=\x7bid\x7d\", \"/b\"\x7d".toList) = ["id".toList] := by
  decide +kernel

end Positional

end RouteComments.Mapping
