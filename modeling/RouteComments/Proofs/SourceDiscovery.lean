import RouteComments.Proofs.DiscoveredFiles
import RouteComments.Proofs.GlyphBytes

set_option autoImplicit false

namespace RouteComments

open Text

namespace Text

/-- A text is read back from its bytes. -/
theorem encode_injective {first second : Text} (same : encode first = encode second) : first = second := by
  have glyphs := congrArg Text.glyphs same
  rw [glyphs_encode, glyphs_encode] at glyphs
  exact List.map_injective_iff.mpr (fun _ _ equal => Glyph.char.inj equal) glyphs

theorem bytesPrecede_iff {first second : List UInt8} : bytesPrecede first second = true ↔ first ≤ second := by
  induction first generalizing second with
  | nil => simp [bytesPrecede]
  | cons a as ih =>
    cases second with
    | nil => simp [bytesPrecede]
    | cons b bs =>
      rw [bytesPrecede, List.cons_le_cons_iff]
      by_cases same : a = b
      · simp [same, ih]
      · simp [same]

end Text

namespace Path

theorem bytes_ofText (text : Text) : (ofText text).bytes = encode text := by
  simp [ofText, bytes, encode, List.flatMap_map, Glyph.bytes]

theorem ofText_injective {first second : Text} (same : ofText first = ofText second) : first = second := by
  have texts := congrArg text? same
  rwa [text?_ofText, text?_ofText, Option.some.injEq] at texts

section Components

variable {path : Path} {name : Text}

theorem steps_append (front back : List Path) : steps (front ++ back) = steps front ++ steps back := by
  simp [steps]

theorem steps_name (proper : isFileName name = true) : steps [ofText name] = [.name (ofText name)] := by
  simp [steps, isTrivial_ofText proper, ofText_ne_twoDots proper]

/-- The components of the segments of a path that does not start at the root. -/
def relativeSteps : List Path → List Component
  | [.char '.'] :: rest => .current :: steps rest
  | segments => steps segments

theorem relativeSteps_append {front : List Path} (filled : front ≠ []) (back : List Path) :
    relativeSteps (front ++ back) = relativeSteps front ++ steps back := by
  obtain ⟨first, others, rfl⟩ := List.exists_cons_of_ne_nil filled
  rw [List.cons_append]
  by_cases dot : first = [.char '.']
  · subst dot
    simp only [relativeSteps, steps_append, List.cons_append]
  · have plain : ∀ rest, relativeSteps (first :: rest) = steps (first :: rest) := by
      intro rest
      unfold relativeSteps
      split
      · rename_i same
        cases same
        exact absurd rfl dot
      · rfl
    rw [plain, plain, ← List.cons_append, steps_append]

theorem components_relative {first : Glyph} (other : first ≠ .char '/') (rest : Path) :
    components (first :: rest) = relativeSteps (segments (first :: rest)) := by
  unfold components
  split
  · rename_i same
    cases same
    exact absurd rfl other
  · rfl

/-- Segments behind a slash are further components. -/
theorem components_append_slash_append {front : Path} (filled : front ≠ []) (back : Path) :
    components (front ++ .char '/' :: back) = components front ++ steps (segments back) := by
  obtain ⟨first, others, rfl⟩ := List.exists_cons_of_ne_nil filled
  have split : ∀ front : Path, segments (front ++ .char '/' :: back) = segments front ++ segments back :=
    fun front => pieces_append_separator _ front back
  rw [List.cons_append]
  by_cases root : first = .char '/'
  · subst root
    show Component.root :: steps (segments (others ++ .char '/' :: back)) = _
    rw [split, steps_append]
    rfl
  · have filledSegments : segments (first :: others) ≠ [] := pieces_ne_nil _ _
    rw [components_relative root, components_relative root, ← List.cons_append, split,
      relativeSteps_append filledSegments]

/-- A name that is joined to a path is its last component. -/
theorem components_join (proper : isFileName name = true) (filled : path ≠ []) :
    components (path.join (ofText name)) = components path ++ [.name (ofText name)] := by
  have alone : steps (segments (ofText name)) = [.name (ofText name)] := by
    rw [segments, pieces_eq_singleton (slash_not_mem_ofText (isFileName_iff.mp proper).2.2.2), steps_name proper]
  obtain ⟨front, joined, shape⟩ := join_eq proper filled
  rw [joined]
  by_cases empty : front = []
  · subst empty
    obtain rfl := shape.resolve_left filled
    show Component.root :: steps (segments (ofText name)) = _
    rw [alone]
    rfl
  · have ended : components (front ++ [.char '/']) = components front := by
      rw [components_append_slash_append empty]
      exact List.append_nil _
    rw [components_append_slash_append empty, alone]
    rcases shape with rfl | rfl
    · rfl
    · rw [ended]

theorem join_ne_nil (proper : isFileName name = true) (filled : path ≠ []) : path.join (ofText name) ≠ [] := by
  obtain ⟨front, joined, -⟩ := join_eq proper filled
  simp [joined]

def named (way : List Text) : List Component :=
  way.map fun name => .name (ofText name)

/-- The components of a path behind some names are those of the path and the names. -/
theorem components_below {way : List Text} (proper : ∀ name ∈ way, isFileName name = true) (filled : path ≠ []) :
    components (path.below way) = components path ++ named way := by
  induction way generalizing path with
  | nil => exact (List.append_nil _).symm
  | cons name rest ih =>
    obtain ⟨first, others⟩ := List.forall_mem_cons.mp proper
    have onward := ih others (join_ne_nil first filled)
    rw [components_join first filled, List.append_assoc] at onward
    exact onward

theorem named_injective {first second : List Text} (same : named first = named second) : first = second :=
  List.map_injective_iff.mpr (fun _ _ equal => ofText_injective (Component.name.inj equal)) same

theorem below_injective {first second : List Text} (proper : ∀ name ∈ first, isFileName name = true)
    (properToo : ∀ name ∈ second, isFileName name = true) (filled : path ≠ [])
    (same : path.below first = path.below second) : first = second := by
  have components := congrArg Path.components same
  rw [components_below proper filled, components_below properToo filled] at components
  exact named_injective (List.append_cancel_left components)

theorem componentsPrecede_append (common first second : List Component) :
    componentsPrecede (common ++ first) (common ++ second) = componentsPrecede first second := by
  induction common with
  | nil => rfl
  | cons component rest ih => rw [List.cons_append, List.cons_append, componentsPrecede, if_pos rfl, ih]

/-- Names are compared one by one, by their bytes. -/
theorem componentsPrecede_named {first second : List Text} :
    componentsPrecede (named first) (named second) = true ↔ first.map encode ≤ second.map encode := by
  induction first generalizing second with
  | nil => simp [named, componentsPrecede]
  | cons name rest ih =>
    cases second with
    | nil => simp [named, componentsPrecede]
    | cons other others =>
      have onward := @ih others
      simp only [named, List.map_cons, componentsPrecede, List.cons_le_cons_iff] at onward ⊢
      by_cases same : name = other
      · simp [same, onward, List.lt_irrefl]
      · have apart : ofText name ≠ ofText other := fun equal => same (ofText_injective equal)
        have bytes : encode name ≠ encode other := fun equal => same (encode_injective equal)
        simp only [Component.name.injEq, apart, bytes, if_false, false_and, or_false, Component.precedes, bytes_ofText,
          bytesPrecede_iff]
        exact ⟨fun before => Std.lt_of_le_of_ne before bytes, Std.le_of_lt⟩

/-- Whether some names do not come behind others: they are compared one by one, by their bytes. -/
def wayPrecedes (first second : List Text) : Bool :=
  first.map encode ≤ second.map encode

theorem precedes_below {first second : List Text} (proper : ∀ name ∈ first, isFileName name = true)
    (properToo : ∀ name ∈ second, isFileName name = true) (filled : path ≠ []) :
    precedes (path.below first) (path.below second) = wayPrecedes first second := by
  rw [Bool.eq_iff_iff, wayPrecedes, decide_eq_true_iff, precedes, components_below proper filled,
    components_below properToo filled, componentsPrecede_append, componentsPrecede_named]

/-- Distinct ways are put into ascending order by their names. -/
theorem pairwise_lt_mergeSort {ways : List (List Text)} (distinct : ways.Nodup) :
    (ways.mergeSort wayPrecedes).Pairwise fun first second => first.map encode < second.map encode := by
  have sorted : (ways.mergeSort wayPrecedes).Pairwise fun first second => wayPrecedes first second = true := by
    refine List.pairwise_mergeSort (fun first second third early late => ?_) (fun first second => ?_) ways
    · rw [wayPrecedes, decide_eq_true_iff] at early late ⊢
      exact List.le_trans early late
    · rw [Bool.or_eq_true, wayPrecedes, wayPrecedes, decide_eq_true_iff, decide_eq_true_iff]
      exact List.le_total _ _
  have apart := (List.mergeSort_perm ways wayPrecedes).nodup_iff.mpr distinct
  refine (sorted.and apart).imp fun ⟨before, different⟩ => ?_
  refine Std.lt_of_le_of_ne (decide_eq_true_iff.mp before) fun same => different ?_
  exact List.map_injective_iff.mpr (fun _ _ => encode_injective) same

end Components

theorem splitName_append {behind : Path} (free : .char '.' ∉ behind) (stem : Path) :
    (splitName (stem ++ .char '.' :: behind)).2 = if stem = [] then none else some behind := by
  have passes : ∀ glyph ∈ behind.reverse, (glyph != Glyph.char '.') = true := by
    intro glyph member
    exact bne_iff_ne.mpr fun same => free (same ▸ List.mem_reverse.mp member)
  have reversed : (stem ++ .char '.' :: behind).reverse = behind.reverse ++ .char '.' :: stem.reverse := by simp
  have taken : (behind.reverse ++ .char '.' :: stem.reverse).takeWhile (· != Glyph.char '.') = behind.reverse := by
    rw [List.takeWhile_append_of_pos passes]
    simp
  have dropped : (behind.reverse ++ .char '.' :: stem.reverse).dropWhile (· != Glyph.char '.') =
      .char '.' :: stem.reverse := by
    rw [List.dropWhile_append_of_pos passes]
    simp
  have front : (Glyph.char '.' :: stem.reverse).reverse.dropLast = stem := by simp
  rw [splitName, reversed, taken, dropped, front]
  cases stem with
  | nil => rfl
  | cons first rest => simp

theorem splitName_of_not_mem {name : Path} (free : .char '.' ∉ name) : (splitName name).2 = none := by
  have gone : name.reverse.dropWhile (· != Glyph.char '.') = [] := by
    rw [List.dropWhile_eq_nil_iff]
    intro glyph member
    exact bne_iff_ne.mpr fun same => free (same ▸ List.mem_reverse.mp member)
  rw [splitName, gone]
  rfl

/-- The extension of a name stands behind its last dot, where something stands before that. -/
theorem splitName_eq_some_iff {name behind : Path} :
    (splitName name).2 = some behind ↔ ∃ stem, name = stem ++ .char '.' :: behind ∧ stem ≠ [] ∧ .char '.' ∉ behind := by
  constructor
  · intro found
    by_cases dotted : Glyph.char '.' ∈ name
    · obtain ⟨back, front, shape, free⟩ := List.eq_append_cons_of_mem (List.mem_reverse.mpr dotted)
      have split : name = front.reverse ++ .char '.' :: back.reverse := by
        have turned := congrArg List.reverse shape
        simpa using turned
      have freeToo : Glyph.char '.' ∉ back.reverse := fun member => free (List.mem_reverse.mp member)
      rw [split, splitName_append freeToo] at found
      split at found
      · cases found
      · rename_i filled
        cases found
        exact ⟨front.reverse, split, filled, freeToo⟩
    · rw [splitName_of_not_mem dotted] at found
      cases found
  · rintro ⟨stem, rfl, filled, free⟩
    rw [splitName_append free, if_neg filled]

end Path

namespace Config

/-- Whether a file name has an extension that is configured, in any ASCII case and with or without leading dots. -/
def AcceptsName (config : Config) (name : Text) : Prop :=
  ∃ stem extension, name = stem ++ '.' :: extension ∧ stem ≠ [] ∧ '.' ∉ extension ∧
    ∃ configured ∈ config.extensions, asciiLower (configured.dropWhile (· == '.')) = asciiLower extension

theorem acceptsExtension_iff {config : Config} {extension : Text} :
    config.acceptsExtension extension = true ↔
      ∃ configured ∈ config.extensions, asciiLower (configured.dropWhile (· == '.')) = asciiLower extension := by
  simp only [acceptsExtension, List.any_eq_true, beq_iff_eq]

theorem splitName_ofText_iff {name : Text} {behind : Path} :
    (Path.splitName (.ofText name)).2 = some behind ↔
      ∃ stem extension, name = stem ++ '.' :: extension ∧ stem ≠ [] ∧ '.' ∉ extension ∧ behind = .ofText extension := by
  rw [Path.splitName_eq_some_iff]
  constructor
  · rintro ⟨front, shape, filled, free⟩
    obtain ⟨stem, rest, rfl, rfl, turned⟩ := List.map_eq_append_iff.mp shape
    obtain ⟨dot, extension, rfl, same, rfl⟩ := List.map_eq_cons_iff.mp turned
    cases same
    refine ⟨stem, extension, rfl, fun empty => filled (by rw [empty]; rfl), fun member => free ?_, rfl⟩
    exact List.mem_map_of_mem member
  · rintro ⟨stem, extension, rfl, filled, free, rfl⟩
    refine ⟨.ofText stem, by simp [Path.ofText], fun empty => filled (List.map_eq_nil_iff.mp empty), fun member => ?_⟩
    obtain ⟨c, inside, same⟩ := List.mem_map.mp member
    cases same
    exact free inside

/-- Whether the file at the end of a way is a source depends on its name only. -/
theorem acceptsPath_below_iff {config : Config} {path : Path} {directories : List Text} {name : Text}
    (proper : ∀ other ∈ directories ++ [name], isFileName other = true) (filled : path ≠ []) :
    config.acceptsPath (path.below (directories ++ [name])) = true ↔ config.AcceptsName name := by
  have last : (path.below (directories ++ [name])).components.getLast? = some (.name (.ofText name)) := by
    rw [Path.components_below proper filled, Path.named, List.map_append, ← List.append_assoc]
    exact List.getLast?_concat
  have named : (path.below (directories ++ [name])).extension? = (Path.splitName (.ofText name)).2 := by
    rw [Path.extension?, Path.fileName?, last]
    rfl
  simp only [acceptsPath, named, Option.any_eq_true, splitName_ofText_iff, acceptsExtension_iff, AcceptsName]
  constructor
  · rintro ⟨_, ⟨stem, extension, shape, before, free, rfl⟩, configured⟩
    rw [Path.shown_ofText] at configured
    exact ⟨stem, extension, shape, before, free, configured⟩
  · rintro ⟨stem, extension, shape, before, free, configured⟩
    refine ⟨_, ⟨stem, extension, shape, before, free, rfl⟩, ?_⟩
    rwa [Path.shown_ofText]

end Config

namespace Entry

/-- A way that leads to a file and passes no excluded directory. -/
structure LeadsToFile (config : Config) (entry : Entry) (way : List Text) : Prop where
  found : ∃ content, entry.at? way = some (.file content)
  passes : ∀ directory ∈ way.dropLast, config.excludes directory = false

theorem leadsToFile_file {config : Config} {content : Content} {way : List Text} :
    LeadsToFile config (.file content) way ↔ way = [] := by
  constructor
  · rintro ⟨⟨found, here⟩, -⟩
    cases way with
    | nil => rfl
    | cons name rest => cases here
  · rintro rfl
    exact ⟨⟨content, rfl⟩, fun _ member => absurd member List.not_mem_nil⟩

theorem LeadsToFile.ne_nil {config : Config} {entries : List (Text × Entry)} {way : List Text}
    (leads : LeadsToFile config (.directory entries) way) : way ≠ [] := by
  rintro rfl
  obtain ⟨content, here⟩ := leads.found
  cases here

theorem forall_mem_dropLast_cons {holds : Text → Prop} {name : Text} {way : List Text} :
    (∀ directory ∈ (name :: way).dropLast, holds directory) ↔
      (way = [] ∨ holds name) ∧ ∀ directory ∈ way.dropLast, holds directory := by
  cases way with
  | nil => simp
  | cons next rest => simp

theorem at?_cons_self (name : Text) (entry : Entry) (rest : List (Text × Entry)) (way : List Text) :
    (Entry.directory ((name, entry) :: rest)).at? (name :: way) = entry.at? way := by
  simp [at?, child?]

theorem at?_cons_of_ne {name other : Text} (different : other ≠ name) (entry : Entry) (rest : List (Text × Entry))
    (way : List Text) :
    (Entry.directory ((name, entry) :: rest)).at? (other :: way) = (Entry.directory rest).at? (other :: way) := by
  have apart : (other == name) = false := beq_eq_false_iff_ne.mpr different
  simp [at?, child?, List.lookup_cons, apart]

theorem mem_of_at?_cons {name : Text} {rest : List (Text × Entry)} {way : List Text} {found : Entry}
    (here : (Entry.directory rest).at? (name :: way) = some found) : name ∈ rest.map Prod.fst := by
  obtain ⟨inner, child, -⟩ := Option.bind_eq_some_iff.mp here
  induction rest with
  | nil => cases child
  | cons first others ih =>
    obtain ⟨other, entry⟩ := first
    rw [List.map_cons, List.mem_cons]
    by_cases same : name = other
    · exact .inl same
    · rw [at?_cons_of_ne same] at here
      simp only [child?, List.lookup_cons, beq_eq_false_iff_ne.mpr same] at child
      exact .inr (ih here child)

/-- A way from a directory goes through its first entry or through the others. -/
theorem leadsToFile_cons {config : Config} {name : Text} {entry : Entry} {rest : List (Text × Entry)}
    (fresh : name ∉ rest.map Prod.fst) (way : List Text) :
    LeadsToFile config (.directory ((name, entry) :: rest)) way ↔
      (∃ inner, way = name :: inner ∧ LeadsToFile config entry inner ∧ (inner = [] ∨ config.excludes name = false)) ∨
        LeadsToFile config (.directory rest) way := by
  cases way with
  | nil =>
    refine iff_of_false (fun leads => leads.ne_nil rfl) ?_
    rintro (⟨inner, shape, -⟩ | leads)
    · cases shape
    · exact leads.ne_nil rfl
  | cons other inner =>
    by_cases same : other = name
    · subst same
      have closed : ¬ LeadsToFile config (.directory rest) (other :: inner) := by
        rintro ⟨⟨content, here⟩, -⟩
        exact fresh (mem_of_at?_cons here)
      rw [or_iff_left closed]
      constructor
      · rintro ⟨found, opened⟩
        rw [at?_cons_self] at found
        obtain ⟨first, others⟩ := forall_mem_dropLast_cons.mp opened
        exact ⟨inner, rfl, ⟨found, others⟩, first⟩
      · rintro ⟨_, ⟨⟩, ⟨found, others⟩, first⟩
        exact ⟨by rwa [at?_cons_self], forall_mem_dropLast_cons.mpr ⟨first, others⟩⟩
    · have elsewhere : ¬ ∃ inner', other :: inner = name :: inner' ∧ LeadsToFile config entry inner' ∧
          (inner' = [] ∨ config.excludes name = false) := by
        rintro ⟨_, shape, -⟩
        exact same (List.cons.inj shape).1
      rw [or_iff_right elsewhere]
      constructor
      · rintro ⟨found, opened⟩
        exact ⟨by rwa [at?_cons_of_ne same] at found, opened⟩
      · rintro ⟨found, opened⟩
        exact ⟨by rwa [at?_cons_of_ne same], opened⟩

mutual

theorem mem_sources_iff (config : Config) (path : Path) (name : Text) (file : Path) :
    ∀ entry : Entry, entry.isTidy = true →
      (file ∈ entry.sources config path name ↔ config.acceptsPath file = true ∧
        ∃ way, file = path.below way ∧ entry.LeadsToFile config way ∧ (way = [] ∨ config.excludes name = false))
  | .file content, _ => by
    rw [sources]
    simp only [leadsToFile_file]
    constructor
    · intro listed
      split at listed
      · rename_i accepted
        obtain rfl := List.mem_singleton.mp listed
        exact ⟨accepted, [], rfl, rfl, .inl rfl⟩
      · cases listed
    · rintro ⟨accepted, _, rfl, rfl, -⟩
      have here : config.acceptsPath path = true := accepted
      rw [if_pos here]
      exact List.mem_singleton.mpr rfl
  | .directory entries, tidy => by
    simp only [isTidy, Bool.and_eq_true, decide_eq_true_eq] at tidy
    have among := mem_sourcesAmong_iff config path file entries tidy.1 tidy.2
    rw [sources]
    split
    · rename_i excluded
      refine iff_of_false List.not_mem_nil ?_
      rintro ⟨-, way, -, leads, passed⟩
      rcases passed with empty | kept
      · exact leads.ne_nil empty
      · rw [excluded] at kept
        cases kept
    · rename_i kept
      rw [among]
      have passed : ∀ way : List Text, way = [] ∨ config.excludes name = false := fun _ =>
        .inr (Bool.eq_false_iff.mpr kept)
      simp only [passed, and_true]

/-- A search lists the files with an accepted name to which a way leads past no excluded directory. -/
theorem mem_sourcesAmong_iff (config : Config) (path : Path) (file : Path) :
    ∀ entries : List (Text × Entry), (entries.map Prod.fst).Nodup → areTidy entries = true →
      (file ∈ sourcesAmong config path entries ↔ config.acceptsPath file = true ∧
        ∃ way, file = path.below way ∧ LeadsToFile config (.directory entries) way)
  | [], _, _ => by
    refine iff_of_false List.not_mem_nil ?_
    rintro ⟨-, way, -, ⟨content, here⟩, -⟩
    cases way with
    | nil => cases here
    | cons name rest => cases here
  | (name, entry) :: rest, distinct, tidy => by
    simp only [areTidy, Bool.and_eq_true] at tidy
    obtain ⟨fresh, others⟩ := List.nodup_cons.mp distinct
    have first := mem_sources_iff config (path.join (.ofText name)) name file entry tidy.1.2
    have later := mem_sourcesAmong_iff config path file rest others tidy.2
    rw [sourcesAmong, List.mem_append, first, later]
    simp only [leadsToFile_cons fresh]
    constructor
    · rintro (⟨accepted, way, rfl, leads, passed⟩ | ⟨accepted, way, rfl, leads⟩)
      · exact ⟨accepted, name :: way, rfl, .inl ⟨way, rfl, leads, passed⟩⟩
      · exact ⟨accepted, way, rfl, .inr leads⟩
    · rintro ⟨accepted, way, rfl, ⟨inner, rfl, leads, passed⟩ | leads⟩
      · exact .inl ⟨accepted, inner, rfl, leads, passed⟩
      · exact .inr ⟨accepted, way, rfl, leads⟩

end

end Entry

namespace FileTree

variable {config : Config} {root : Path} {entries : List (Text × Entry)}

/-- What it takes for a way from a directory to end at a source, said of its names. -/
theorem leadsToSource_iff (tidy : (Entry.directory entries).isTidy = true) (filled : root ≠ []) (way : List Text) :
    (config.acceptsPath (root.below way) = true ∧ Entry.LeadsToFile config (.directory entries) way) ↔
      ∃ directories name content, way = directories ++ [name] ∧
        (Entry.directory entries).at? way = some (.file content) ∧
        (∀ directory ∈ directories, directory ∉ config.exclude) ∧ config.AcceptsName name := by
  have excludes : ∀ directory, config.excludes directory = false ↔ directory ∉ config.exclude := by
    intro directory
    rw [Config.excludes, ← Bool.not_eq_true, List.contains_iff_mem]
  constructor
  · rintro ⟨accepted, leads⟩
    obtain ⟨directories, name, rfl⟩ := (List.eq_nil_or_concat' way).resolve_left leads.ne_nil
    obtain ⟨⟨content, found⟩, passes⟩ := leads
    rw [List.dropLast_concat] at passes
    refine ⟨directories, name, content, rfl, found, fun directory passed => ?_, ?_⟩
    · exact (excludes directory).mp (passes directory passed)
    · exact (Config.acceptsPath_below_iff (Entry.isTidy_at? tidy found).1 filled).mp accepted
  · rintro ⟨directories, name, content, rfl, found, kept, accepted⟩
    refine ⟨(Config.acceptsPath_below_iff (Entry.isTidy_at? tidy found).1 filled).mpr accepted, ⟨content, found⟩, ?_⟩
    rw [List.dropLast_concat]
    exact fun directory passed => (excludes directory).mpr (kept directory passed)

/-- The names under which a search lists its sources are the ways that end at one. -/
theorem mem_names_iff {names : List (List Text)} (tidy : (Entry.directory entries).isTidy = true) (filled : root ≠ [])
    (named : Entry.Named root (Entry.sourcesAmong config root entries) names) (way : List Text) :
    way ∈ names ↔
      config.acceptsPath (root.below way) = true ∧ Entry.LeadsToFile config (.directory entries) way := by
  have proper : ∀ way, Entry.LeadsToFile config (.directory entries) way → ∀ name ∈ way, isFileName name = true := by
    rintro way ⟨⟨content, found⟩, -⟩
    exact (Entry.isTidy_at? tidy found).1
  have inside := tidy
  simp only [Entry.isTidy, Bool.and_eq_true, decide_eq_true_eq] at inside
  have among := fun path => Entry.mem_sourcesAmong_iff config root path entries inside.1 inside.2
  rw [named.listed] at among
  constructor
  · intro here
    obtain ⟨accepted, other, same, leads⟩ := (among _).mp (List.mem_map_of_mem here)
    obtain rfl := Path.below_injective (named.proper way here) (proper other leads) filled same
    exact ⟨accepted, leads⟩
  · rintro ⟨accepted, leads⟩
    obtain ⟨other, here, same⟩ := List.mem_map.mp ((among _).mpr ⟨accepted, way, rfl, leads⟩)
    rwa [← Path.below_injective (named.proper other here) (proper way leads) filled same]

/-- A search below a directory lists each source once, in the order of the names that lead to it, compared one by one by
their bytes. The sources are the files with an accepted extension to which a way leads that passes no excluded
directory. -/
theorem walkSources_sorted_complete {tree : FileTree} (config : Config) (tidy : tree.root.isTidy = true)
    (here : tree.entry root = .ok (.directory entries)) :
    ∃ ways : List (List Text), tree.walkSources root config = .ok (ways.map root.below) ∧ (ways.map root.below).Nodup ∧
      ways.Pairwise (fun first second => first.map encode < second.map encode) ∧
      ∀ way, way ∈ ways ↔ ∃ directories name content, way = directories ++ [name] ∧
        (Entry.directory entries).at? way = some (.file content) ∧
        (∀ directory ∈ directories, directory ∉ config.exclude) ∧ config.AcceptsName name := by
  obtain ⟨filled, inside⟩ := isTidy_entry tidy here
  obtain ⟨-, names, named⟩ := exists_named_of_directory config tidy here
  have walked : tree.walkSources root config = .ok ((names.mergeSort Path.wayPrecedes).map root.below) := by
    rw [walkSources, here]
    dsimp only
    rw [named.listed, List.map_mergeSort]
    intro first listed second listedToo
    exact (Path.precedes_below (named.proper first listed) (named.proper second listedToo) filled).symm
  have reordered := List.mergeSort_perm names Path.wayPrecedes
  refine ⟨_, walked, ?_, Path.pairwise_lt_mergeSort named.distinct, fun way => ?_⟩
  · refine (reordered.nodup_iff.mpr named.distinct).map_on fun first here second hereToo same => ?_
    exact Path.below_injective (named.proper first (reordered.mem_iff.mp here))
      (named.proper second (reordered.mem_iff.mp hereToo)) filled same
  · rw [reordered.mem_iff, mem_names_iff inside filled named, leadsToSource_iff inside filled]

/-- Below a directory with an excluded name a file is found whose extension is in capitals, but nothing in another
excluded directory and no file that starts with its only dot. -/
theorem excludedRoot_sorted_complete :
    let file := Entry.file (.text [])
    let entries := [("build".toList, .directory [("c.java".toList, file)]), (".java".toList, file),
      ("a".toList, .directory [("b.JAVA".toList, file)])]
    let tree : FileTree := { root := .directory [("target".toList, .directory entries)], current := [] }
    let root := Path.ofText "/target".toList
    tree.root.isTidy = true ∧ tree.entry root = .ok (.directory entries) ∧
      ∃ ways, tree.walkSources root .standard = .ok (List.map root.below ways) ∧
        ["a".toList, "b.JAVA".toList] ∈ ways ∧ ["build".toList, "c.java".toList] ∉ ways ∧ [".java".toList] ∉ ways := by
  intro file entries tree root
  have tidy : tree.root.isTidy = true := by decide +kernel
  have here : tree.entry root = .ok (.directory entries) := rfl
  obtain ⟨ways, walked, -, -, listed⟩ := walkSources_sorted_complete .standard tidy here
  refine ⟨tidy, here, ways, walked, ?_, fun found => ?_, fun found => ?_⟩
  · refine (listed _).mpr ⟨["a".toList], "b.JAVA".toList, .text [], rfl, rfl, by decide, ?_⟩
    exact ⟨"b".toList, "JAVA".toList, rfl, by decide, by decide, "java".toList, by decide, by decide⟩
  · obtain ⟨directories, name, content, shape, -, kept, -⟩ := (listed _).mp found
    have split : ["build".toList] ++ ["c.java".toList] = directories ++ [name] := shape
    obtain ⟨rfl, -⟩ := List.append_inj' split rfl
    exact kept "build".toList List.mem_cons_self (by decide)
  · obtain ⟨directories, name, content, shape, -, -, stem, extension, split, filled, free, -⟩ := (listed _).mp found
    obtain ⟨-, same⟩ := List.append_inj' (show [] ++ [".java".toList] = directories ++ [name] from shape) rfl
    rw [← (List.cons.inj same).1] at split
    obtain ⟨first, rest, rfl⟩ := List.exists_cons_of_ne_nil filled
    -- behind its first character the name has no dot
    have behind := (List.cons.inj split).2
    have dotted : '.' ∈ "java".toList := by
      rw [show "java".toList = rest ++ '.' :: extension from behind]
      simp
    exact absurd dotted (by decide)

end FileTree

end RouteComments
