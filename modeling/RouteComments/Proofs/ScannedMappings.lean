import RouteComments.Mapping.Scanner
import RouteComments.Proofs.Searches

set_option autoImplicit false

namespace RouteComments

open Text

namespace Java

/-- Arguments in parentheses at the head of a text, behind optional blanks: they reach to the first closing one. -/
def Encloses (text args rest : Text) : Prop :=
  ∃ blanks : Text, (∀ c ∈ blanks, isBlank c = true) ∧ ')' ∉ args ∧
    text = blanks ++ '(' :: (args ++ ')' :: rest)

theorem arguments?_skip {blanks : Text} (blank : ∀ c ∈ blanks, isBlank c = true) (text : Text) :
    arguments? (blanks ++ text) = arguments? text := by
  unfold arguments? skipBlanks
  rw [List.dropWhile_append_of_pos blank]

theorem encloses_of_arguments? {text args rest : Text} (found : arguments? text = some (args, rest)) :
    Encloses text args rest := by
  unfold arguments? at found
  split at found
  · rename_i inner opened
    split at found
    · rename_i sign behind closed
      cases found
      have stops : sign = ')' := by
        have head := List.head?_dropWhile_not (· != ')') inner
        rw [closed] at head
        simpa using head
      have inside : inner = inner.takeWhile (· != ')') ++ ')' :: rest := by
        rw [stops] at closed
        rw [← closed, List.takeWhile_append_dropWhile]
      refine ⟨text.takeWhile isBlank, fun c => List.mem_takeWhile_imp, fun member => ?_, ?_⟩
      · simpa using List.mem_takeWhile_imp member
      · rw [← inside, ← opened, skipBlanks, List.takeWhile_append_dropWhile]
    · cases found
  · cases found

/-- The reader of arguments reads what is enclosed and nothing else. -/
theorem arguments?_eq_some_iff {text args rest : Text} :
    arguments? text = some (args, rest) ↔ Encloses text args rest := by
  refine ⟨encloses_of_arguments?, ?_⟩
  rintro ⟨blanks, blank, closed, rfl⟩
  rw [arguments?_skip blank, arguments?_of_closed closed]

end Java

namespace Mapping

open Java

/-- A mapping opens at the head of a text: an `@` and the name of a kind, and no word character behind it. -/
def Opens (kind : Kind) (text rest : Text) : Prop :=
  text = '@' :: (kind.keyword ++ rest) ∧ ∀ c ∈ rest.head?, isWord c = false

/-- A mapping at the head of a text, with its arguments and the text behind it. It extends over the arguments where
there are any, else it ends with its name. -/
inductive Extends (text : Text) (kind : Kind) : Text → Text → Prop where
  | enclosed {behind args rest : Text} (opens : Opens kind text behind) (encloses : Encloses behind args rest) :
      Extends text kind args rest
  | bare {rest : Text} (opens : Opens kind text rest) (unclosed : ∀ args behind, ¬ Encloses rest args behind) :
      Extends text kind [] rest

/-- The mappings of a text at an offset, searched from the left: none opens anywhere, or one opens behind a front in
which none does, and the others are those of the text behind it. -/
inductive Scanned : Nat → Text → List Occurrence → Prop where
  | finished {offset : Nat} {text : Text} (silent : ∀ back, back <:+ text → ∀ kind rest, ¬ Opens kind back rest) :
      Scanned offset text []
  | found {offset : Nat} {front used rest args : Text} {kind : Kind} {later : List Occurrence}
      (silent : ∀ back, back <:+ front → back ≠ [] → ∀ kind behind, ¬ Opens kind (back ++ (used ++ rest)) behind)
      (here : Extends (used ++ rest) kind args rest)
      (onward : Scanned (offset + bytes (front ++ used)) rest later) :
      Scanned offset (front ++ (used ++ rest)) ({ kind, args, offset := offset + bytes front } :: later)

/-- At one place there is one keyword at most: no two of them start with the same two letters. -/
theorem kind_eq_of_keyword {kind other : Kind} {rest behind : Text}
    (same : kind.keyword ++ rest = other.keyword ++ behind) : kind = other := by
  have letters : ∀ (kind : Kind) (rest : Text), (kind.keyword ++ rest).take 2 = kind.keyword.take 2 := by
    intro kind rest
    cases kind <;> rfl
  have first : kind.keyword.take 2 = other.keyword.take 2 := by
    rw [← letters kind rest, same, letters]
  revert first
  cases kind <;> cases other <;> decide

theorem keyword_of_kind? {text rest : Text} {kind : Kind} (found : kind? text = some (kind, rest)) :
    text = kind.keyword ++ rest ∧ startsWithWord rest = false := by
  obtain ⟨tried, _, read⟩ := List.exists_of_findSome?_eq_some found
  obtain ⟨behind, success, same⟩ := Option.map_eq_some_iff.mp read
  cases same
  exact wholeWord?_eq_some_iff.mp success

theorem kind?_eq_some_iff {text rest : Text} {kind : Kind} :
    kind? text = some (kind, rest) ↔ text = kind.keyword ++ rest ∧ startsWithWord rest = false := by
  refine ⟨keyword_of_kind?, ?_⟩
  rintro ⟨rfl, ends⟩
  cases found : kind? (kind.keyword ++ rest) with
  | none =>
    have failed := List.findSome?_eq_none_iff.mp found kind (by cases kind <;> decide)
    rw [wholeWord?_eq_some_iff.mpr ⟨rfl, ends⟩] at failed
    cases failed
  | some result =>
    -- The kinds are tried one after another; none of the others can have been read here.
    obtain ⟨other, behind⟩ := result
    obtain ⟨shape, _⟩ := keyword_of_kind? found
    obtain rfl := kind_eq_of_keyword shape
    rw [List.append_cancel_left shape]

theorem opens_cons_iff {kind : Kind} {text rest : Text} :
    Opens kind ('@' :: text) rest ↔ kind? text = some (kind, rest) := by
  rw [kind?_eq_some_iff, startsWithWord_eq_false_iff, Opens, List.cons_eq_cons, and_iff_right rfl]

theorem mapping?_eq_none_iff {text : Text} : mapping? text = none ↔ ∀ kind rest, ¬ Opens kind text rest := by
  cases text with
  | nil => simp [mapping?, Opens]
  | cons c cs =>
    by_cases sign : c = '@'
    · subst sign
      rw [← Option.not_isSome_iff_eq_none, isSome_mapping?, Option.isSome_iff_exists]
      simp only [opens_cons_iff, Prod.exists, not_exists]
    · rw [mapping?_needs c cs sign]
      simp [Opens, sign]

/-- The reader of mappings reads what the grammar says. -/
theorem mapping?_eq_some_iff {text args rest : Text} {kind : Kind} :
    mapping? text = some ((kind, args), rest) ↔ Extends text kind args rest := by
  constructor
  · intro found
    unfold mapping? at found
    split at found
    · split at found
      · rename_i read success
        have opens := opens_cons_iff.mpr success
        split at found
        · rename_i enclosed
          cases found
          exact .enclosed opens (arguments?_eq_some_iff.mp enclosed)
        · rename_i unclosed
          cases found
          refine .bare opens fun args behind encloses => ?_
          rw [arguments?_eq_some_iff.mpr encloses] at unclosed
          cases unclosed
      · cases found
    · cases found
  · intro reads
    cases reads with
    | enclosed opens encloses =>
      obtain rfl := opens.1
      rw [mapping?, opens_cons_iff.mp opens]
      simp only [arguments?_eq_some_iff.mpr encloses]
    | bare opens unclosed =>
      obtain rfl := opens.1
      have none : arguments? rest = none :=
        Option.eq_none_iff_forall_ne_some.mpr fun found enclosed => unclosed _ _ (arguments?_eq_some_iff.mp enclosed)
      rw [mapping?, opens_cons_iff.mp opens]
      simp only [none]

/-- What a mapping uses up starts with an at sign. -/
theorem Extends.used {used args rest : Text} {kind : Kind} (reads : Extends (used ++ rest) kind args rest) :
    ∃ tail, used = '@' :: tail := by
  obtain ⟨behind, shape, _, tail, rfl⟩ := mapping?_spec (mapping?_eq_some_iff.mpr reads)
  exact ⟨tail, List.append_cancel_right shape⟩

/-- A mapping with the offset at which it was read. -/
def Occurrence.ofMatch : Nat × Kind × Text → Occurrence
  | (offset, kind, args) => { kind, args, offset }

theorem mappings_eq (text : Text) : mappings text = (matchesFrom mapping? 0 text).map Occurrence.ofMatch := rfl

theorem classBasePath_eq (text : Text) :
    classBasePath text =
      (((mappings text).filter (·.isClassLevel (typeDeclarationOffset text))).map (·.paths)).getLast?.elim []
        (·.headD []) := by
  rw [classBasePath, List.getLast?_map]
  cases ((mappings text).filter (·.isClassLevel (typeDeclarationOffset text))).getLast? with
  | none => rfl
  | some occurrence => rfl

/-- A search passes over a character at which no mapping opens. -/
theorem Scanned.cons {offset : Nat} {c : Char} {cs : Text} {occurrences : List Occurrence}
    (silent : ∀ kind rest, ¬ Opens kind (c :: cs) rest) (scanned : Scanned (offset + c.utf8Size) cs occurrences) :
    Scanned offset (c :: cs) occurrences := by
  cases scanned with
  | finished onward =>
    refine .finished fun back suffix => ?_
    rcases List.suffix_cons_iff.mp suffix with rfl | suffix
    · exact silent
    · exact onward back suffix
  | @found _ front used rest args kind later before here onward =>
    have place : offset + c.utf8Size + bytes front = offset + bytes (c :: front) := by
      rw [bytes_cons, Nat.add_assoc]
    rw [bytes_append, ← Nat.add_assoc, place, Nat.add_assoc, ← bytes_append] at onward
    rw [place]
    refine @Scanned.found offset (c :: front) used rest args kind later (fun back suffix filled => ?_) here onward
    rcases List.suffix_cons_iff.mp suffix with rfl | suffix
    · exact silent
    · exact before back suffix filled

/-- The search of the library is a search by the grammar. -/
theorem scanned_matchesFrom (offset : Nat) (text : Text) :
    Scanned offset text ((matchesFrom mapping? offset text).map Occurrence.ofMatch) := by
  fun_induction matchesFrom mapping? offset text with
  | case1 offset =>
    refine .finished fun back suffix kind rest opens => ?_
    rw [List.suffix_nil.mp suffix] at opens
    cases opens.1
  | case2 offset c cs found rest success shorter ih =>
    obtain ⟨kind, args⟩ := found
    obtain ⟨used, shape⟩ := mapping?_consumes _ _ _ success
    rw [shape] at success ih ⊢
    rw [upTo_append] at ih ⊢
    refine @Scanned.found offset [] used rest args kind _ (fun back suffix filled => ?_)
      (mapping?_eq_some_iff.mp success) ih
    exact absurd (List.suffix_nil.mp suffix) filled
  | case3 offset c cs found rest success longer =>
    obtain ⟨kind, args⟩ := found
    obtain ⟨behind, shape, _, suffix⟩ := mapping?_spec success
    cases shape
    exact absurd suffix.length_le longer
  | case4 offset c cs fails ih => exact ih.cons (mapping?_eq_none_iff.mp fails)

/-- The grammar leaves no choice: each search by it gives the mappings of the library. -/
theorem Scanned.eq_matchesFrom {offset : Nat} {text : Text} {occurrences : List Occurrence}
    (scanned : Scanned offset text occurrences) :
    occurrences = (matchesFrom mapping? offset text).map Occurrence.ofMatch := by
  induction scanned with
  | @finished offset text silent =>
    have fails : ∀ rest, rest <:+ text → rest ≠ [] → mapping? (rest ++ []) = none := by
      intro rest suffix _
      rw [List.append_nil]
      exact mapping?_eq_none_iff.mpr (silent rest suffix)
    have passed := matchesFrom_append fails offset
    rw [List.append_nil] at passed
    rw [passed, matchesFrom]
    rfl
  | @found offset front used rest args kind later silent here onward ih =>
    have fails : ∀ back, back <:+ front → back ≠ [] → mapping? (back ++ (used ++ rest)) = none :=
      fun back suffix filled => mapping?_eq_none_iff.mpr (silent back suffix filled)
    have success := mapping?_eq_some_iff.mpr here
    obtain ⟨tail, rfl⟩ := here.used
    have shorter : rest.length ≤ (tail ++ rest).length := by
      rw [List.length_append]
      omega
    rw [matchesFrom_append fails, List.cons_append, matchesFrom, ← List.cons_append, success]
    simp only [if_pos shorter, upTo_append, List.map_cons, Occurrence.ofMatch]
    rw [ih, bytes_append, Nat.add_assoc]

theorem scanned_iff {text : Text} {occurrences : List Occurrence} :
    Scanned 0 text occurrences ↔ occurrences = mappings text := by
  refine ⟨Scanned.eq_matchesFrom, ?_⟩
  rintro rfl
  exact scanned_matchesFrom 0 text

/-- Mappings stand at ascending offsets, at or behind the offset of their text. -/
theorem Scanned.ascending {offset : Nat} {text : Text} {occurrences : List Occurrence}
    (scanned : Scanned offset text occurrences) :
    (∀ occurrence ∈ occurrences, offset ≤ occurrence.offset) ∧
      occurrences.Pairwise fun earlier later => earlier.offset < later.offset := by
  induction scanned with
  | finished silent => exact ⟨fun _ member => absurd member List.not_mem_nil, List.Pairwise.nil⟩
  | @found offset front used rest args kind later silent here onward ih =>
    obtain ⟨behind, sorted⟩ := ih
    obtain ⟨tail, rfl⟩ := here.used
    have size : '@'.utf8Size = 1 := by decide
    simp only [bytes_append, bytes_cons, size] at behind
    refine ⟨List.forall_mem_cons.mpr ⟨Nat.le_add_right _ _, fun occurrence member => ?_⟩,
      List.pairwise_cons.mpr ⟨fun occurrence member => ?_, sorted⟩⟩
    · have bound := behind occurrence member
      omega
    · have bound := behind occurrence member
      show offset + bytes front < occurrence.offset
      omega

/-- A mapping of the class: a generic one before the type declaration. -/
def Occurrence.BelongsToClass (text : Text) (occurrence : Occurrence) : Prop :=
  occurrence.kind = .generic ∧
    ∃ declaration, typeDeclarationOffset text = some declaration ∧ occurrence.offset < declaration

theorem isClassLevel_iff {text : Text} {occurrence : Occurrence} :
    occurrence.isClassLevel (typeDeclarationOffset text) = true ↔ occurrence.BelongsToClass text := by
  simp only [Occurrence.isClassLevel, Occurrence.BelongsToClass, Bool.and_eq_true, beq_iff_eq, Option.any_eq_true,
    decide_eq_true_eq]

instance (text : Text) (occurrence : Occurrence) : Decidable (occurrence.BelongsToClass text) :=
  decidable_of_iff _ isClassLevel_iff

theorem matchesFrom_of_firstMapping?_eq_none {offset : Nat} {text : Text} (none : firstMapping? offset text = none) :
    matchesFrom mapping? offset text = [] := by
  induction text generalizing offset with
  | nil => rw [matchesFrom]
  | cons c cs ih =>
    rw [firstMapping?] at none
    split at none
    · cases none
    · rename_i fails
      rw [matchesFrom, fails]
      exact ih none

/-- All mappings are the first one and those of the text behind it. -/
theorem firstMapping?_spec {offset next : Nat} {text rest : Text} {occurrence : Occurrence}
    (first : firstMapping? offset text = some (occurrence, next, rest)) :
    (matchesFrom mapping? offset text).map Occurrence.ofMatch =
      occurrence :: (matchesFrom mapping? next rest).map Occurrence.ofMatch := by
  induction text generalizing offset with
  | nil => cases first
  | cons c cs ih =>
    rw [firstMapping?] at first
    split at first
    · rename_i kind args behind success
      cases first
      obtain ⟨tail, shape, _, suffix⟩ := mapping?_spec success
      cases shape
      rw [matchesFrom, success]
      simp only [if_pos suffix.length_le, List.map_cons, Occurrence.ofMatch]
    · rename_i fails
      rw [matchesFrom, fails]
      exact ih first

namespace Scanner

/-- The mappings of methods in the text that is left. -/
def remaining (scanner : Scanner) : List Occurrence :=
  ((matchesFrom mapping? scanner.offset scanner.left).map Occurrence.ofMatch).filter
    (!·.isClassLevel scanner.declaration)

theorem remaining_of_next?_eq_none {scanner : Scanner} (none : scanner.next? = none) : scanner.remaining = [] := by
  fun_induction next? scanner with
  | case1 scanner first => rw [remaining, matchesFrom_of_firstMapping?_eq_none first, List.map_nil, List.filter_nil]
  | case2 scanner occurrence offset left first passed ih =>
    rw [remaining, firstMapping?_spec first, List.filter_cons_of_neg (by simpa using passed)]
    exact ih none
  | case3 => cases none

/-- One step gives the first of the remaining mappings and goes on with the others. -/
theorem next?_spec {scanner onward : Scanner} {occurrence : Occurrence}
    (stepped : scanner.next? = some (occurrence, onward)) :
    scanner.remaining = occurrence :: onward.remaining := by
  fun_induction next? scanner with
  | case1 => cases stepped
  | case2 scanner passed offset left first isClass ih =>
    rw [← ih stepped, remaining, firstMapping?_spec first, List.filter_cons_of_neg (by simpa using isClass)]
    rfl
  | case3 scanner given offset left first isMethod =>
    cases stepped
    rw [remaining, firstMapping?_spec first, List.filter_cons_of_pos (by simpa using isMethod)]
    rfl

theorem all_eq_remaining (scanner : Scanner) : scanner.all = scanner.remaining := by
  fun_induction all scanner with
  | case1 scanner none => exact (remaining_of_next?_eq_none none).symm
  | case2 scanner occurrence onward stepped ih => rw [ih, next?_spec stepped]

theorem all_ofText (text : Text) : (ofText text).all = methodMappings text :=
  all_eq_remaining (ofText text)

end Scanner

/-- The walk may stop where it does, because mappings are sorted. -/
theorem basePathBefore_eq {occurrences : List Occurrence}
    (sorted : occurrences.Pairwise fun earlier later => earlier.offset < later.offset) (declaration : Nat)
    (base : Text) :
    basePathBefore declaration base occurrences =
      ((occurrences.filter (·.isClassLevel (some declaration))).getLast?.map (·.paths.headD [])).getD base := by
  induction occurrences generalizing base with
  | nil => rfl
  | cons occurrence rest ih =>
    obtain ⟨above, sortedRest⟩ := List.pairwise_cons.mp sorted
    rw [basePathBefore]
    split
    · rename_i behind
      have none : (occurrence :: rest).filter (·.isClassLevel (some declaration)) = [] := by
        rw [List.filter_eq_nil_iff]
        intro other member
        have bound : declaration ≤ other.offset := by
          rcases List.mem_cons.mp member with rfl | member
          · exact behind
          · exact Nat.le_of_lt (Nat.lt_of_le_of_lt behind (above other member))
        simp only [Occurrence.isClassLevel, Option.any_some, Bool.and_eq_true, decide_eq_true_eq, not_and, Nat.not_lt]
        exact fun _ => bound
      rw [none]
      rfl
    · rename_i before
      rw [ih sortedRest]
      by_cases generic : occurrence.kind = .generic
      · have isClass : occurrence.isClassLevel (some declaration) = true := by
          simp only [Occurrence.isClassLevel, Option.any_some, generic, beq_self_eq_true, Bool.true_and,
            decide_eq_true_eq]
          omega
        rw [List.filter_cons_of_pos isClass, List.getLast?_cons, if_pos generic]
        cases (rest.filter (·.isClassLevel (some declaration))).getLast? <;> rfl
      · have isMethod : ¬ occurrence.isClassLevel (some declaration) = true := by
          simp [Occurrence.isClassLevel, generic]
        rw [List.filter_cons_of_neg isMethod, if_neg generic]

theorem mappings_ascending (text : Text) :
    (mappings text).Pairwise fun earlier later => earlier.offset < later.offset :=
  (scanned_matchesFrom 0 text).ascending.2

theorem classBasePath_eq_walk (text : Text) :
    classBasePath text =
      (typeDeclarationOffset text).elim [] fun declaration => basePathBefore declaration [] (mappings text) := by
  unfold classBasePath
  cases typeDeclarationOffset text with
  | none =>
    have none : (mappings text).filter (·.isClassLevel none) = [] :=
      List.filter_eq_nil_iff.mpr fun occurrence _ => by simp [Occurrence.isClassLevel]
    simp only [none, List.getLast?_nil, Option.elim_none]
  | some declaration =>
    rw [Option.elim_some, basePathBefore_eq (mappings_ascending text)]
    dsimp only
    cases ((mappings text).filter (·.isClassLevel (some declaration))).getLast? <;> rfl

/-- The base path is the first path of the last mapping of the class. -/
theorem classBasePath_of_last {text : Text} {front back : List Occurrence} {last : Occurrence}
    (split : mappings text = front ++ last :: back) (isClass : last.BelongsToClass text)
    (others : ∀ later ∈ back, ¬ later.BelongsToClass text) :
    ∃ more, extractPaths last.args = classBasePath text :: more := by
  have behind : back.filter (·.isClassLevel (typeDeclarationOffset text)) = [] :=
    List.filter_eq_nil_iff.mpr fun later member found => others later member (isClassLevel_iff.mp found)
  have found : ((mappings text).filter (·.isClassLevel (typeDeclarationOffset text))).getLast? = some last := by
    rw [split, List.filter_append, List.filter_cons_of_pos (isClassLevel_iff.mpr isClass), behind,
      List.getLast?_append, List.getLast?_singleton, Option.some_or]
  simp only [classBasePath, found, Occurrence.paths]
  cases paths : extractPaths last.args with
  | nil => exact absurd paths (extractPaths_ne_nil last.args)
  | cons first more => exact ⟨more, rfl⟩

theorem classBasePath_of_none {text : Text} (none : ∀ occurrence ∈ mappings text, ¬ occurrence.BelongsToClass text) :
    classBasePath text = [] := by
  have nothing : (mappings text).filter (·.isClassLevel (typeDeclarationOffset text)) = [] :=
    List.filter_eq_nil_iff.mpr fun later member found => none later member (isClassLevel_iff.mp found)
  simp only [classBasePath, nothing, List.getLast?_nil]

theorem methodMappings_eq_filter (text : Text) :
    methodMappings text = (mappings text).filter fun occurrence => ¬ occurrence.BelongsToClass text := by
  refine List.filter_congr fun occurrence _ => ?_
  rw [Bool.eq_iff_iff, decide_eq_true_eq, ← isClassLevel_iff]
  simp

/-- The search by the grammar has one result, with ascending offsets, and it is divided between the class and its
methods. A scanner that passes over the mappings of the class gives the others and comes to an end, and the base path
is the first path of the last mapping of the class, which a walk up to the declaration finds. -/
theorem mappings_divided (text : Text) :
    ∃ found : List Occurrence,
      (∀ occurrences, Scanned 0 text occurrences ↔ occurrences = found) ∧
      (found.Pairwise fun earlier later => earlier.offset < later.offset) ∧
      ((Scanner.ofText text).all = methodMappings text ∧
        methodMappings text = found.filter fun occurrence => ¬ occurrence.BelongsToClass text) ∧
      (classBasePath text =
          ((typeDeclarationOffset text).elim [] fun declaration => basePathBefore declaration [] found) ∧
        (∀ front last back, found = front ++ last :: back → last.BelongsToClass text →
          (∀ later ∈ back, ¬ later.BelongsToClass text) →
          ∃ more, extractPaths last.args = classBasePath text :: more) ∧
        ((∀ occurrence ∈ found, ¬ occurrence.BelongsToClass text) → classBasePath text = [])) ∧
      ∀ occurrence ∈ found, (occurrence ∈ methodMappings text ↔ ¬ occurrence.BelongsToClass text) := by
  refine ⟨mappings text, fun _ => scanned_iff, mappings_ascending text,
    ⟨Scanner.all_ofText text, methodMappings_eq_filter text⟩,
    ⟨classBasePath_eq_walk text, fun _ _ _ => classBasePath_of_last, classBasePath_of_none⟩,
    fun occurrence member => ?_⟩
  rw [methodMappings_eq_filter, List.mem_filter, and_iff_right member, decide_eq_true_eq]

end Mapping

end RouteComments
