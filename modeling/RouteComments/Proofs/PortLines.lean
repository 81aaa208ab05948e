import RouteComments.LocalServer
import RouteComments.Proofs.Searches

set_option autoImplicit false

namespace RouteComments.LocalServer

open Text

section Grammar

def Spaces (text : Text) : Prop :=
  ∀ c ∈ text, isSpaceOrTab c = true

/-- A text starts with a number, which is the longest run of digits at its head. -/
structure StartsWithNumber (text number : Text) : Prop where
  filled : number ≠ []
  digits : ∀ c ∈ number, isDigit c = true
  longest : ∃ rest, text = number ++ rest ∧ ∀ c ∈ rest.head?, isDigit c = false

/-- A line that starts with `server.port = number`. -/
def IsPortProperty (line number : Text) : Prop :=
  ∃ indent before after rest, Spaces indent ∧ Spaces before ∧ Spaces after ∧ StartsWithNumber rest number ∧
    line = indent ++ ("server.port".toList ++ (before ++ '=' :: (after ++ rest)))

/-- A line `server:` with nothing behind it but spaces, tabs and a carriage return. -/
def IsServerKey (line : Text) : Prop :=
  ∃ blanks ending, Spaces blanks ∧ (ending = [] ∨ ending = ['\r']) ∧ line = "server:".toList ++ (blanks ++ ending)

/-- An indented line that starts with `port: number`. -/
def IsPortEntry (line number : Text) : Prop :=
  ∃ indent after rest, indent ≠ [] ∧ Spaces indent ∧ Spaces after ∧ StartsWithNumber rest number ∧
    line = indent ++ ("port:".toList ++ (after ++ rest))

/-- What the first of some items gives that gives anything. -/
def FirstGives {α : Type} (gives : α → Text → Prop) (items : List α) (number : Text) : Prop :=
  ∃ before item after, items = before ++ item :: after ∧ gives item number ∧
    ∀ earlier ∈ before, ∀ other, ¬ gives earlier other

/-- The port of a properties file, by its lines. -/
def PropertiesGive (text number : Text) : Prop :=
  FirstGives IsPortProperty (pieces '\n' text) number

/-- The port of a YAML file, by its pairs of neighbouring lines. -/
def YamlGives (text number : Text) : Prop :=
  FirstGives (fun (pair : Text × Text) number => IsServerKey pair.1 ∧ IsPortEntry pair.2 number)
    ((pieces '\n' text).zip (pieces '\n' text).tail) number

end Grammar

section Readers

variable {text rest number : Text}

theorem exists_spaces (text : Text) : ∃ blanks, Spaces blanks ∧ text = blanks ++ skipSpaces text :=
  ⟨text.takeWhile isSpaceOrTab, fun _ => List.mem_takeWhile_imp, List.takeWhile_append_dropWhile.symm⟩

theorem skipSpaces_append {blanks : Text} (spaces : Spaces blanks) (solid : ∀ c ∈ rest.head?, isSpaceOrTab c = false) :
    skipSpaces (blanks ++ rest) = rest := by
  rw [skipSpaces, List.dropWhile_append_of_pos spaces]
  cases rest with
  | nil => rfl
  | cons c cs => rw [List.dropWhile_cons, solid c rfl]; rfl

theorem Spaces.unbroken {blanks : Text} (spaces : Spaces blanks) : '\n' ∉ blanks :=
  fun member => absurd (spaces '\n' member) (by decide)

theorem digits?_eq_some_iff : digits? text = some number ↔ StartsWithNumber text number := by
  constructor
  · intro found
    unfold digits? at found
    split at found
    · cases found
    · rename_i filled
      cases found
      exact ⟨filled, fun _ => List.mem_takeWhile_imp, text.dropWhile isDigit, List.takeWhile_append_dropWhile.symm,
        fun _ => stops_of_head?_dropWhile⟩
  · rintro ⟨filled, digits, rest, rfl, stops⟩
    have taken : (number ++ rest).takeWhile isDigit = number := by
      cases rest with
      | nil => rw [List.append_nil, List.takeWhile_eq_self_iff.mpr digits]
      | cons c cs => exact takeWhile_append_cons digits (stops c rfl) cs
    unfold digits?
    rw [taken]
    split
    · exact absurd rfl filled
    · rfl

/-- No digit is a space or a tab. -/
theorem StartsWithNumber.solid (starts : StartsWithNumber text number) : ∀ c ∈ text.head?, isSpaceOrTab c = false := by
  obtain ⟨filled, digits, rest, rfl, -⟩ := starts
  obtain ⟨first, others, rfl⟩ := List.exists_cons_of_ne_nil filled
  intro c head
  cases head
  have digit := digits first List.mem_cons_self
  rw [← Bool.not_eq_true]
  intro space
  rw [isSpaceOrTab, Bool.or_eq_true, beq_iff_eq, beq_iff_eq] at space
  rcases space with rfl | rfl
  · exact absurd digit (by decide)
  · exact absurd digit (by decide)

theorem propertyLine?_eq_some_iff : propertyLine? text = some number ↔ IsPortProperty text number := by
  constructor
  · intro found
    unfold propertyLine? at found
    split at found
    · rename_i behind assigned
      obtain ⟨name, named, skipped⟩ := Option.map_eq_some_iff.mp assigned
      obtain ⟨indent, indented, shape⟩ := exists_spaces text
      obtain ⟨before, spaced, shapeName⟩ := exists_spaces name
      obtain ⟨after, spacedToo, shapeBehind⟩ := exists_spaces behind
      refine ⟨indent, before, after, skipSpaces behind, indented, spaced, spacedToo, digits?_eq_some_iff.mp found, ?_⟩
      rw [← shapeBehind, ← skipped, ← shapeName, ← after?_eq_some_iff.mp named, ← shape]
    · cases found
  · rintro ⟨indent, before, after, rest, indented, spaced, spacedToo, starts, rfl⟩
    have key : skipSpaces (indent ++ ("server.port".toList ++ (before ++ '=' :: (after ++ rest)))) =
        "server.port".toList ++ (before ++ '=' :: (after ++ rest)) :=
      skipSpaces_append indented (fun c head => by cases head; decide)
    have sign : skipSpaces (before ++ '=' :: (after ++ rest)) = '=' :: (after ++ rest) :=
      skipSpaces_append spaced (fun c head => by cases head; decide)
    rw [propertyLine?, key, after?_eq_some_iff.mpr rfl, Option.map_some, sign]
    show digits? (skipSpaces (after ++ rest)) = some number
    rw [skipSpaces_append spacedToo starts.solid, digits?_eq_some_iff.mpr starts]

theorem portEntry?_eq_some_iff : portEntry? text = some number ↔ IsPortEntry text number := by
  constructor
  · intro found
    unfold portEntry? at found
    split at found
    · rename_i indentedLine
      obtain ⟨behind, key, digits⟩ := Option.bind_eq_some_iff.mp found
      obtain ⟨indent, indented, shape⟩ := exists_spaces text
      obtain ⟨after, spaced, shapeBehind⟩ := exists_spaces behind
      rw [after?_eq_some_iff.mp key] at shape
      refine ⟨indent, after, skipSpaces behind, ?_, indented, spaced, digits?_eq_some_iff.mp digits, ?_⟩
      · rintro rfl
        rw [shape] at indentedLine
        have space : isSpaceOrTab 'p' = true := indentedLine
        exact absurd space (by decide)
      · rw [← shapeBehind, shape]
    · cases found
  · rintro ⟨indent, after, rest, filled, indented, spaced, starts, rfl⟩
    obtain ⟨first, others, rfl⟩ := List.exists_cons_of_ne_nil filled
    have key : skipSpaces (first :: others ++ ("port:".toList ++ (after ++ rest))) =
        "port:".toList ++ (after ++ rest) :=
      skipSpaces_append indented (fun c head => by cases head; decide)
    have indentedLine : (first :: others ++ ("port:".toList ++ (after ++ rest))).head?.any isSpaceOrTab = true :=
      indented first List.mem_cons_self
    unfold portEntry?
    rw [if_pos indentedLine, key, after?_eq_some_iff.mpr rfl, Option.bind_some,
      skipSpaces_append spaced starts.solid, digits?_eq_some_iff.mpr starts]

theorem lineEnd?_eq_some_iff :
    lineEnd? text = some rest ↔ ∃ ending, (ending = [] ∨ ending = ['\r']) ∧ text = ending ++ '\n' :: rest := by
  constructor
  · intro found
    unfold lineEnd? at found
    split at found
    · cases found
      exact ⟨[], .inl rfl, rfl⟩
    · cases found
      exact ⟨['\r'], .inr rfl, rfl⟩
    · cases found
  · rintro ⟨ending, rfl | rfl, rfl⟩
    · rfl
    · rfl

end Readers

section Lines

variable {line number : Text}

theorem skipSpaces_line (line rest : Text) : skipSpaces (line ++ '\n' :: rest) = skipSpaces line ++ '\n' :: rest :=
  dropWhile_append_stop (by decide) line rest

theorem digits?_line (line rest : Text) : digits? (line ++ '\n' :: rest) = digits? line := by
  have taken : (line ++ '\n' :: rest).takeWhile isDigit = line.takeWhile isDigit := by
    rw [List.takeWhile_append]
    split
    · rename_i all
      have stops : isDigit '\n' = false := by decide
      rw [List.takeWhile_cons, stops, if_neg Bool.false_ne_true, List.append_nil]
      exact ((List.takeWhile_prefix isDigit).eq_of_length all).symm
    · rfl
  rw [digits?, digits?, taken]

/-- A property is read from its line alone. -/
theorem propertyLine?_line (line rest : Text) : propertyLine? (line ++ '\n' :: rest) = propertyLine? line := by
  rw [propertyLine?, propertyLine?, skipSpaces_line, after?_append (by decide)]
  cases after? "server.port".toList (skipSpaces line) with
  | none => rfl
  | some behind =>
    simp only [Option.map_some, skipSpaces_line]
    cases skipSpaces behind with
    | nil => rfl
    | cons c cs =>
      by_cases sign : c = '='
      · subst sign
        simp only [List.cons_append, skipSpaces_line, digits?_line]
      · simp [sign]

/-- A port entry is read from its line alone. -/
theorem portEntry?_line (line rest : Text) : portEntry? (line ++ '\n' :: rest) = portEntry? line := by
  have indented : (line ++ '\n' :: rest).head?.any isSpaceOrTab = line.head?.any isSpaceOrTab := by
    cases line with
    | nil => rfl
    | cons c cs => rfl
  unfold portEntry?
  rw [indented, skipSpaces_line, after?_append (by decide)]
  cases after? "port:".toList (skipSpaces line) with
  | none => rfl
  | some behind => simp only [Option.map_some, Option.bind_some, skipSpaces_line, digits?_line]

/-- The lines of a server block are a server key and what a port entry is read from. -/
theorem serverBlock?_line (unbroken : '\n' ∉ line) (rest : Text) :
    serverBlock? (line ++ '\n' :: rest) = some number ↔ IsServerKey line ∧ portEntry? rest = some number := by
  constructor
  · intro found
    obtain ⟨next, ended, entry⟩ := Option.bind_eq_some_iff.mp found
    obtain ⟨behind, key, skipped⟩ := Option.bind_eq_some_iff.mp ended
    obtain ⟨ending, either, shape⟩ := lineEnd?_eq_some_iff.mp skipped
    obtain ⟨blanks, spaces, shapeBehind⟩ := exists_spaces behind
    have whole : line ++ '\n' :: rest = ("server:".toList ++ (blanks ++ ending)) ++ '\n' :: next := by
      rw [after?_eq_some_iff.mp key, shapeBehind, shape]
      simp only [List.append_assoc]
    have unbrokenKey : '\n' ∉ "server:".toList ++ (blanks ++ ending) := by
      rw [List.mem_append, List.mem_append, not_or, not_or]
      refine ⟨by decide, spaces.unbroken, ?_⟩
      rcases either with rfl | rfl
      · decide
      · decide
    obtain rfl := eq_of_append_cons unbroken unbrokenKey whole
    rw [List.append_cancel_left_eq, List.cons.injEq] at whole
    exact ⟨⟨blanks, ending, spaces, either, rfl⟩, whole.2 ▸ entry⟩
  · rintro ⟨⟨blanks, ending, spaces, either, rfl⟩, entry⟩
    have ended : lineEnd? (skipSpaces (blanks ++ (ending ++ '\n' :: rest))) = some rest := by
      rw [skipSpaces_append spaces]
      · exact lineEnd?_eq_some_iff.mpr ⟨ending, either, rfl⟩
      · rcases either with rfl | rfl
        · exact fun c head => by cases head; decide
        · exact fun c head => by cases head; decide
    rw [serverBlock?, List.append_assoc, List.append_assoc, after?_eq_some_iff.mpr rfl, Option.bind_some, ended,
      Option.bind_some, entry]

/-- A single line is no server block. -/
theorem serverBlock?_last (unbroken : '\n' ∉ line) : serverBlock? line = none := by
  rw [Option.eq_none_iff_forall_ne_some]
  intro number found
  obtain ⟨next, ended, -⟩ := Option.bind_eq_some_iff.mp found
  obtain ⟨behind, key, skipped⟩ := Option.bind_eq_some_iff.mp ended
  obtain ⟨ending, -, shape⟩ := lineEnd?_eq_some_iff.mp skipped
  obtain ⟨blanks, -, shapeBehind⟩ := exists_spaces behind
  rw [after?_eq_some_iff.mp key, shapeBehind, shape] at unbroken
  exact unbroken (by simp)

end Lines

section Searching

variable {read : Text → Option Text} {line : Text}

theorem firstAtLine?_start (c : Char) (cs : Text) :
    firstAtLine? read true (c :: cs) = (read (c :: cs)).or (firstAtLine? read (c == '\n') cs) := by
  rw [firstAtLine?, if_pos rfl]
  cases read (c :: cs) <;> rfl

/-- Inside a line nothing is tried. -/
theorem firstAtLine?_inside (unbroken : '\n' ∉ line) (back : Text) :
    firstAtLine? read false (line ++ '\n' :: back) = firstAtLine? read true back ∧
      firstAtLine? read false line = none := by
  induction line with
  | nil => exact ⟨rfl, rfl⟩
  | cons c cs ih =>
    obtain ⟨different, others⟩ := List.ne_and_not_mem_of_not_mem_cons unbroken
    have plain : (c == '\n') = false := beq_false_of_ne different.symm
    simpa [firstAtLine?, plain] using ih others

/-- A search tries a line from its start and then the lines behind it. -/
theorem firstAtLine?_line (unbroken : '\n' ∉ line) (back : Text) :
    firstAtLine? read true (line ++ '\n' :: back) =
      (read (line ++ '\n' :: back)).or (firstAtLine? read true back) := by
  cases line with
  | nil => exact firstAtLine?_start '\n' back
  | cons c cs =>
    obtain ⟨different, others⟩ := List.ne_and_not_mem_of_not_mem_cons unbroken
    rw [List.cons_append, firstAtLine?_start, beq_false_of_ne different.symm, (firstAtLine?_inside others back).1]

theorem firstAtLine?_last (unbroken : '\n' ∉ line) : firstAtLine? read true line = read line := by
  cases line with
  | nil => rfl
  | cons c cs =>
    obtain ⟨different, others⟩ := List.ne_and_not_mem_of_not_mem_cons unbroken
    rw [firstAtLine?_start, beq_false_of_ne different.symm, (firstAtLine?_inside others []).2, Option.or_none]

section First

variable {α : Type} {gives : α → Text → Prop} {item : α} {items : List α} {number : Text}

theorem not_firstGives_nil : ¬ FirstGives gives [] number := by
  rintro ⟨before, item, after, shape, -⟩
  cases before <;> cases shape

theorem firstGives_cons :
    FirstGives gives (item :: items) number ↔
      gives item number ∨ (∀ other, ¬ gives item other) ∧ FirstGives gives items number := by
  constructor
  · rintro ⟨before, found, after, shape, given, silent⟩
    cases before with
    | nil =>
      obtain ⟨rfl, -⟩ := List.cons.inj shape
      exact .inl given
    | cons first before =>
      obtain ⟨rfl, rfl⟩ := List.cons.inj shape
      obtain ⟨here, others⟩ := List.forall_mem_cons.mp silent
      exact .inr ⟨here, before, found, after, rfl, given, others⟩
  · rintro (given | ⟨here, before, found, after, rfl, given, silent⟩)
    · exact ⟨[], item, items, rfl, given, fun _ member => absurd member List.not_mem_nil⟩
    · exact ⟨item :: before, found, after, rfl, given, List.forall_mem_cons.mpr ⟨here, silent⟩⟩

/-- What is found at an item or else behind it is what the first item gives that gives anything. -/
theorem or_eq_some_iff_firstGives {found later : Option Text} (here : ∀ number, found = some number ↔ gives item number)
    (behind : ∀ number, later = some number ↔ FirstGives gives items number) (number : Text) :
    found.or later = some number ↔ FirstGives gives (item :: items) number := by
  rw [firstGives_cons, Option.or_eq_some_iff, Option.eq_none_iff_forall_ne_some, here, behind]
  simp only [ne_eq, here]

end First

/-- The port of a properties file is that of the first line that assigns one. -/
theorem ofProperties?_joinWith {lines : List Text} (filled : lines ≠ []) (unbroken : ∀ line ∈ lines, '\n' ∉ line)
    (number : Text) :
    ofProperties? (joinWith ['\n'] lines) = some number ↔ FirstGives IsPortProperty lines number := by
  induction lines generalizing number with
  | nil => exact absurd rfl filled
  | cons line rest ih =>
    obtain ⟨whole, others⟩ := List.forall_mem_cons.mp unbroken
    cases rest with
    | nil =>
      rw [joinWith, ofProperties?, firstAtLine?_last whole, propertyLine?_eq_some_iff, firstGives_cons]
      simp [not_firstGives_nil]
    | cons next rest =>
      rw [joinWith_cons_of_ne_nil _ (List.cons_ne_nil next rest), ofProperties?, firstAtLine?_line whole,
        propertyLine?_line]
      exact or_eq_some_iff_firstGives (fun _ => propertyLine?_eq_some_iff)
        (ih (List.cons_ne_nil next rest) others) number

/-- The port of a YAML file is that of the first server key with a port entry on the next line. -/
theorem ofYaml?_joinWith {lines : List Text} (filled : lines ≠ []) (unbroken : ∀ line ∈ lines, '\n' ∉ line)
    (number : Text) :
    ofYaml? (joinWith ['\n'] lines) = some number ↔
      FirstGives (fun (pair : Text × Text) number => IsServerKey pair.1 ∧ IsPortEntry pair.2 number)
        (lines.zip lines.tail) number := by
  induction lines generalizing number with
  | nil => exact absurd rfl filled
  | cons line rest ih =>
    obtain ⟨whole, others⟩ := List.forall_mem_cons.mp unbroken
    cases rest with
    | nil =>
      rw [joinWith, ofYaml?, firstAtLine?_last whole, serverBlock?_last whole]
      exact iff_of_false (by simp) not_firstGives_nil
    | cons next rest =>
      have entry : portEntry? (joinWith ['\n'] (next :: rest)) = portEntry? next := by
        cases rest with
        | nil => rfl
        | cons later rest =>
          rw [joinWith_cons_of_ne_nil _ (List.cons_ne_nil later rest)]
          exact portEntry?_line next _
      have block (number : Text) : serverBlock? (line ++ '\n' :: joinWith ['\n'] (next :: rest)) = some number ↔
          IsServerKey line ∧ IsPortEntry next number := by
        rw [serverBlock?_line whole, entry, portEntry?_eq_some_iff]
      rw [joinWith_cons_of_ne_nil _ (List.cons_ne_nil next rest), ofYaml?, firstAtLine?_line whole, List.tail_cons,
        List.zip_cons_cons]
      exact or_eq_some_iff_firstGives block (ih (List.cons_ne_nil next rest) others) number

theorem ofProperties?_eq_some_iff {text number : Text} :
    ofProperties? text = some number ↔ PropertiesGive text number := by
  have lines := ofProperties?_joinWith (pieces_ne_nil '\n' text) (fun _ => not_mem_of_mem_pieces) number
  rwa [joinWith_pieces] at lines

theorem ofYaml?_eq_some_iff {text number : Text} : ofYaml? text = some number ↔ YamlGives text number := by
  have lines := ofYaml?_joinWith (pieces_ne_nil '\n' text) (fun _ => not_mem_of_mem_pieces) number
  rwa [joinWith_pieces] at lines

end Searching

section Resolution

variable {read : Text → Option Text}

def FileGives (read : Text → Option Text) (file : Text) (gives : Text → Text → Prop) (number : Text) : Prop :=
  ∃ text, read file = some text ∧ gives text number

/-- The files that can give the port, in the order in which they go before each other. -/
def portFiles : List (Text × (Text → Text → Prop)) :=
  [("src/main/resources/application.properties".toList, PropertiesGive),
    ("src/main/resources/application.yml".toList, YamlGives),
    ("src/main/resources/application.yaml".toList, YamlGives)]

/-- The port that the first of some files gives, or the default if none does, with the files read for it: those up to
the one that gives the port, and no other. -/
inductive Resolved (read : Text → Option Text) : List (Text × (Text → Text → Prop)) → Text → List Text → Prop where
  | given {file : Text} {gives : Text → Text → Prop} {rest : List (Text × (Text → Text → Prop))} {number : Text}
      (found : FileGives read file gives number) : Resolved read ((file, gives) :: rest) number [file]
  | passed {file : Text} {gives : Text → Text → Prop} {rest : List (Text × (Text → Text → Prop))} {number : Text}
      {files : List Text} (silent : ∀ other, ¬ FileGives read file gives other)
      (onward : Resolved read rest number files) : Resolved read ((file, gives) :: rest) number (file :: files)
  | standard : Resolved read [] "8080".toList []

theorem bind_eq_some_iff_fileGives {file : Text} {port? : Text → Option Text} {gives : Text → Text → Prop}
    (reads : ∀ text number, port? text = some number ↔ gives text number) (number : Text) :
    (read file).bind port? = some number ↔ FileGives read file gives number := by
  simp only [Option.bind_eq_some_iff, FileGives, reads]

/-- A search answers for some sources as the files are resolved that they read. -/
def Resolves (read : Text → Option Text) (sources : List (Text × (Text → Option Text)))
    (files : List (Text × (Text → Text → Prop))) : Prop :=
  ∀ number passed, Resolved read files number passed ↔
    (search read sources).1.getD defaultPort = number ∧ (search read sources).2 = passed

theorem resolves_nil (read : Text → Option Text) : Resolves read [] [] := by
  intro number passed
  constructor
  · rintro ⟨⟩
    exact ⟨rfl, rfl⟩
  · rintro ⟨rfl, rfl⟩
    exact .standard

theorem Resolves.cons {sources : List (Text × (Text → Option Text))} {files : List (Text × (Text → Text → Prop))}
    (resolves : Resolves read sources files) (file : Text) {port? : Text → Option Text} {gives : Text → Text → Prop}
    (reads : ∀ text number, port? text = some number ↔ gives text number) :
    Resolves read ((file, port?) :: sources) ((file, gives) :: files) := by
  have here (number : Text) : (read file).bind port? = some number ↔ FileGives read file gives number :=
    bind_eq_some_iff_fileGives reads number
  intro number passed
  constructor
  · rintro (found | ⟨silent, onward⟩)
    · rw [search, (here number).mpr found]
      exact ⟨rfl, rfl⟩
    · have missing : (read file).bind port? = none :=
        Option.eq_none_iff_forall_ne_some.mpr fun other found => silent other ((here other).mp found)
      obtain ⟨rfl, rfl⟩ := (resolves _ _).mp onward
      rw [search, missing]
      exact ⟨rfl, rfl⟩
  · rintro ⟨rfl, rfl⟩
    cases found : (read file).bind port? with
    | some port =>
      rw [search, found]
      exact .given ((here port).mp found)
    | none =>
      rw [search, found]
      refine .passed (fun other given => ?_) ((resolves _ _).mpr ⟨rfl, rfl⟩)
      rw [(here other).mpr given] at found
      cases found

/-- The port of a project is that of the first line of its properties file that assigns one, else that of the first
server block of the first YAML file that has one, else 8080, and no file is read behind the one that gives it. -/
theorem port_resolved (read : Text → Option Text) (number : Text) (files : List Text) :
    Resolved read portFiles number files ↔ port read = number ∧ filesRead read = files := by
  have yaml (text number : Text) : ofYaml? text = some number ↔ YamlGives text number := ofYaml?_eq_some_iff
  have properties (text number : Text) : ofProperties? text = some number ↔ PropertiesGive text number :=
    ofProperties?_eq_some_iff
  exact (((resolves_nil read).cons _ yaml).cons _ yaml).cons _ properties number files

end Resolution

end RouteComments.LocalServer
