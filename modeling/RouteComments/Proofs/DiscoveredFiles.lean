import Mathlib.Data.List.Nodup
import RouteComments.FileTree.Search
import RouteComments.Proofs.FileWrites
import RouteComments.Proofs.Texts

set_option autoImplicit false

namespace RouteComments

open Text

/-- Whether a text can be the name of a file or directory. -/
def isFileName (name : Text) : Bool :=
  !name.isEmpty && name != ['.'] && name != ['.', '.'] && !name.contains '/'

namespace Entry

mutual

/-- Whether all names in an entry are proper, and distinct in each directory. -/
def isTidy : Entry → Bool
  | .file _ => true
  | .directory entries => decide (entries.map Prod.fst).Nodup && areTidy entries

/-- Whether some entries are tidy and have proper names. -/
def areTidy : List (Text × Entry) → Bool
  | [] => true
  | (name, entry) :: rest => isFileName name && entry.isTidy && areTidy rest

end

theorem isTidy_of_lookup {entries : List (Text × Entry)} {name : Text} {entry : Entry}
    (tidy : areTidy entries = true) (found : entries.lookup name = some entry) :
    isFileName name = true ∧ entry.isTidy = true := by
  induction entries with
  | nil => cases found
  | cons first rest ih =>
    obtain ⟨other, inner⟩ := first
    simp only [areTidy, Bool.and_eq_true] at tidy
    rw [List.lookup_cons] at found
    split at found
    · rename_i same
      cases found
      rw [beq_iff_eq.mp same]
      exact tidy.1
    · exact ih tidy.2 found

/-- The names on a way in a tidy entry are proper, and what they lead to is tidy. -/
theorem isTidy_at? {entry found : Entry} {place : List Text} (tidy : entry.isTidy = true)
    (here : entry.at? place = some found) : (∀ name ∈ place, isFileName name = true) ∧ found.isTidy = true := by
  induction place generalizing entry with
  | nil =>
    cases here
    exact ⟨fun _ member => absurd member List.not_mem_nil, tidy⟩
  | cons name rest ih =>
    obtain ⟨inner, child, below⟩ := Option.bind_eq_some_iff.mp here
    cases entry with
    | file content => cases child
    | directory entries =>
      simp only [isTidy, Bool.and_eq_true] at tidy
      obtain ⟨proper, innerTidy⟩ := isTidy_of_lookup tidy.2 child
      obtain ⟨others, foundTidy⟩ := ih innerTidy below
      exact ⟨List.forall_mem_cons.mpr ⟨proper, others⟩, foundTidy⟩

end Entry

namespace Path

/-- The path behind some names, starting from a path. -/
def below (path : Path) (names : List Text) : Path :=
  names.foldl (fun path name => path.join (.ofText name)) path

end Path

namespace Entry

/-- Sources are listed under the names that lead to them. -/
structure Named (path : Path) (sources : List Path) (names : List (List Text)) : Prop where
  listed : sources = names.map path.below
  distinct : names.Nodup
  proper : ∀ way ∈ names, ∀ name ∈ way, isFileName name = true

mutual

theorem exists_named_sources (config : Config) (path : Path) (name : Text) :
    ∀ entry : Entry, entry.isTidy = true → ∃ names, Named path (entry.sources config path name) names
  | .file _, _ => by
    rw [sources]
    split
    · exact ⟨[[]], rfl, by simp, by simp⟩
    · exact ⟨[], rfl, by simp, by simp⟩
  | .directory entries, tidy => by
    simp only [isTidy, Bool.and_eq_true, decide_eq_true_eq] at tidy
    rw [sources]
    split
    · exact ⟨[], rfl, by simp, by simp⟩
    · obtain ⟨names, named, -⟩ := exists_named_sourcesAmong config path entries tidy.1 tidy.2
      exact ⟨names, named⟩

theorem exists_named_sourcesAmong (config : Config) (path : Path) :
    ∀ entries : List (Text × Entry), (entries.map Prod.fst).Nodup → areTidy entries = true →
      ∃ names, Named path (sourcesAmong config path entries) names ∧
        ∀ way ∈ names, ∃ name, way.head? = some name ∧ name ∈ entries.map Prod.fst
  | [], _, _ => ⟨[], ⟨rfl, by simp, by simp⟩, by simp⟩
  | (name, entry) :: rest, distinct, tidy => by
    simp only [areTidy, Bool.and_eq_true] at tidy
    obtain ⟨fresh, others⟩ := List.nodup_cons.mp distinct
    obtain ⟨inner, innerNamed⟩ := exists_named_sources config (path.join (.ofText name)) name entry tidy.1.2
    obtain ⟨later, laterNamed, heads⟩ := exists_named_sourcesAmong config path rest others tidy.2
    refine ⟨inner.map (name :: ·) ++ later, ⟨?_, ?_, ?_⟩, ?_⟩
    · rw [sourcesAmong, innerNamed.listed, laterNamed.listed, List.map_append, List.map_map]
      rfl
    · refine List.nodup_append.mpr ⟨innerNamed.distinct.map fun _ _ same => (List.cons.inj same).2,
        laterNamed.distinct, ?_⟩
      -- what was found in the first entry starts with its name, and nothing else does
      rintro _ inFirst way inLater rfl
      obtain ⟨names, -, rfl⟩ := List.mem_map.mp inFirst
      obtain ⟨head, here, listed⟩ := heads _ inLater
      cases Option.some.inj here
      exact fresh listed
    · intro way member
      rcases List.mem_append.mp member with inFirst | inLater
      · obtain ⟨names, found, rfl⟩ := List.mem_map.mp inFirst
        intro other listed
        rcases List.mem_cons.mp listed with rfl | inside
        · exact tidy.1.1
        · exact innerNamed.proper names found other inside
      · exact laterNamed.proper way inLater
    · intro way member
      rcases List.mem_append.mp member with inFirst | inLater
      · obtain ⟨names, -, rfl⟩ := List.mem_map.mp inFirst
        exact ⟨name, rfl, List.mem_cons_self⟩
      · obtain ⟨head, here, listed⟩ := heads way inLater
        exact ⟨head, here, List.mem_cons_of_mem _ listed⟩

end

end Entry

namespace Path

variable {path : Path} {name : Text}

theorem isFileName_iff : isFileName name = true ↔ name ≠ [] ∧ name ≠ ['.'] ∧ name ≠ ['.', '.'] ∧ '/' ∉ name := by
  simp [isFileName, and_assoc]

theorem slash_not_mem_ofText (free : '/' ∉ name) : Glyph.char '/' ∉ ofText name := by
  intro member
  obtain ⟨c, inside, same⟩ := List.mem_map.mp member
  cases same
  exact free inside

theorem isTrivial_ofText (proper : isFileName name = true) : isTrivial (ofText name) = false := by
  obtain ⟨filled, noDot, -, -⟩ := isFileName_iff.mp proper
  cases name with
  | nil => exact absurd rfl filled
  | cons c rest =>
    cases rest with
    | nil => simpa [isTrivial, ofText] using noDot
    | cons d others => simp [isTrivial, ofText]

theorem ofText_ne_twoDots (proper : isFileName name = true) : ofText name ≠ twoDots := by
  obtain ⟨-, -, noDots, -⟩ := isFileName_iff.mp proper
  intro same
  have texts := congrArg Path.text? same
  rw [text?_ofText] at texts
  exact noDots (Option.some.inj texts)

theorem segments_append_slash (front : Path) (proper : isFileName name = true) :
    segments (front ++ .char '/' :: ofText name) = segments front ++ [ofText name] := by
  have free := slash_not_mem_ofText (isFileName_iff.mp proper).2.2.2
  rw [segments, pieces_append_separator, pieces_eq_singleton free]
  rfl

theorem isAbsolute_ofText (free : '/' ∉ name) : (ofText name).isAbsolute = false := by
  cases name with
  | nil => rfl
  | cons c rest =>
    have other : c ≠ '/' := fun same => free (same ▸ List.mem_cons_self)
    simpa [isAbsolute, ofText] using other

/-- A name joins behind a slash, which is there already or is added. -/
theorem join_eq (proper : isFileName name = true) (filled : path ≠ []) :
    ∃ front, path.join (ofText name) = front ++ .char '/' :: ofText name ∧
      (path = front ∨ path = front ++ [.char '/']) := by
  have relative := isAbsolute_ofText (isFileName_iff.mp proper).2.2.2
  rcases List.eq_nil_or_concat path with rfl | ⟨front, last, rfl⟩
  · exact absurd rfl filled
  · rw [List.concat_eq_append]
    by_cases slash : last = .char '/'
    · exact ⟨front, by simp [join, relative, slash], .inr (by rw [slash])⟩
    · exact ⟨front ++ [last], by simp [join, relative, slash], .inl rfl⟩

end Path

namespace FileTree

variable {tree : FileTree} {path : Path} {name : Text}

theorem route_absolute (tree : FileTree) (rest : Path) :
    tree.route (.char '/' :: rest) = ([], Path.segments rest) := rfl

theorem route_relative (tree : FileTree) {first : Glyph} (other : first ≠ .char '/') (rest : Path) :
    tree.route (first :: rest) = (tree.current, Path.segments (first :: rest)) := by
  unfold route
  split
  · rename_i same
    cases same
    exact absurd rfl other
  · rfl

theorem route_append_slash (tree : FileTree) (filled : path ≠ []) (back : Path) :
    tree.route (path ++ .char '/' :: back) = ((tree.route path).1, (tree.route path).2 ++ Path.segments back) := by
  cases path with
  | nil => exact absurd rfl filled
  | cons first rest =>
    by_cases root : first = .char '/'
    · subst root
      rw [List.cons_append, route_absolute, route_absolute, Path.segments, pieces_append_separator]
      rfl
    · rw [List.cons_append, route_relative tree root, route_relative tree root, ← List.cons_append, Path.segments,
        pieces_append_separator]
      rfl

/-- The segments of a joined path are those of the path and the name; an empty one at the end gives way. -/
theorem route_join (tree : FileTree) (proper : isFileName name = true) (filled : path ≠ []) :
    ∃ front, tree.route (path.join (.ofText name)) = ((tree.route path).1, front ++ [.ofText name]) ∧
      ((tree.route path).2 = front ∨ (tree.route path).2 = front ++ [[]]) := by
  obtain ⟨front, joined, shape⟩ := Path.join_eq proper filled
  have segments := fun front => Path.segments_append_slash front proper
  have ended : ∀ front : Path, Path.segments (front ++ [.char '/']) = Path.segments front ++ [[]] := by
    intro front
    rw [Path.segments, pieces_append_separator]
    rfl
  rw [joined]
  cases front with
  | nil =>
    rcases shape with rfl | rfl
    · exact absurd rfl filled
    · refine ⟨[], ?_, .inr rfl⟩
      have alone := pieces_eq_singleton (Path.slash_not_mem_ofText (Path.isFileName_iff.mp proper).2.2.2)
      simp only [List.nil_append, route_absolute, Path.segments, alone]
  | cons first others =>
    by_cases root : first = .char '/'
    · subst root
      refine ⟨Path.segments others, ?_, ?_⟩
      · rcases shape with rfl | rfl
        · simp [route_absolute, segments]
        · simp [route_absolute, segments]
      · rcases shape with rfl | rfl
        · exact .inl rfl
        · exact .inr (by simp [route_absolute, ended])
    · refine ⟨Path.segments (first :: others), ?_, ?_⟩
      · rcases shape with rfl | rfl
        · simp [route_relative tree root, ← segments]
        · simp [route_relative tree root, ← segments]
      · rcases shape with rfl | rfl
        · exact .inl (by rw [route_relative tree root])
        · exact .inr (by rw [List.cons_append, route_relative tree root, ← List.cons_append, ended])

/-- Where the segments of a path lead. -/
def walk (tree : FileTree) (path : Path) : Except Fault (List Text) :=
  follow tree.root (tree.route path).1 (tree.route path).2

theorem spellingFault?_eq_none_iff :
    spellingFault? path = none ↔ .char '\x00' ∉ path ∧ path ≠ [] ∧ path.bytes.length < pathLimit := by
  unfold spellingFault?
  by_cases zero : Glyph.char '\x00' ∈ path
  · simp [zero]
  · by_cases empty : path = []
    · simp [empty]
    · by_cases long : pathLimit ≤ path.bytes.length
      · simp [zero, empty, long]
      · simp [zero, empty, long, Nat.lt_of_not_le long]

theorem locate_eq_ok_iff {place : List Text} :
    tree.locate path = .ok place ↔ spellingFault? path = none ∧ tree.walk path = .ok place := by
  unfold locate
  cases spellingFault? path with
  | some fault => simp
  | none => exact (and_iff_right rfl).symm

theorem walk_of_locate {place : List Text} (located : tree.locate path = .ok place) :
    path ≠ [] ∧ tree.walk path = .ok place := by
  obtain ⟨spelled, led⟩ := locate_eq_ok_iff.mp located
  exact ⟨(spellingFault?_eq_none_iff.mp spelled).2.1, led⟩

/-- A name leads from a directory to the entry of that name. -/
theorem follow_name {root : Entry} {start place : List Text} (proper : isFileName name = true)
    (led : follow root start [.ofText name] = .ok place) :
    place = start ++ [name] ∧ ∃ entries, root.at? start = some (.directory entries) := by
  rw [follow] at led
  split at led
  · rename_i entries here
    rw [Path.isTrivial_ofText proper, if_neg (by simp), if_neg (Path.ofText_ne_twoDots proper)] at led
    split at led
    · rename_i found spelled
      cases led
      refine ⟨?_, entries, here⟩
      simp only [find?, Path.text?_ofText] at spelled
      split at spelled
      · cases spelled
      · simp only [Except.ok.injEq, Option.filter_eq_some_iff, Option.some.injEq] at spelled
        rw [spelled.1]
    · cases led
    · cases led
  · cases led
  · cases led

/-- A path with a name behind it leads from where the path leads to the entry of that name. -/
theorem walk_join {place : List Text} (proper : isFileName name = true) (filled : path ≠ [])
    (led : tree.walk (path.join (.ofText name)) = .ok place) :
    ∃ above, tree.walk path = .ok above ∧ place = above ++ [name] := by
  obtain ⟨front, route, shape⟩ := route_join tree proper filled
  rw [walk, route] at led
  obtain ⟨above, toAbove, toPlace⟩ := exists_of_follow_append led
  obtain ⟨shapeOf, entries, here⟩ := follow_name proper toPlace
  refine ⟨above, ?_, shapeOf⟩
  rcases shape with same | ended
  · rw [walk, same, toAbove]
  · -- the empty segment stays in the directory that the name is looked up in
    have stays : follow tree.root above [[]] = .ok above := by
      simp [follow, here, Path.isTrivial]
    rw [walk, ended, follow_append, toAbove]
    exact stays

theorem walk_below {names : List Text} {place : List Text} (proper : ∀ name ∈ names, isFileName name = true)
    (filled : path ≠ []) (led : tree.walk (path.below names) = .ok place) :
    ∃ above, tree.walk path = .ok above ∧ place = above ++ names := by
  induction names generalizing path with
  | nil => exact ⟨place, led, by simp⟩
  | cons name rest ih =>
    have named := proper name List.mem_cons_self
    have joined : path.join (.ofText name) ≠ [] := by
      obtain ⟨front, shape, -⟩ := Path.join_eq named filled
      simp [shape]
    obtain ⟨middle, toMiddle, rfl⟩ :=
      ih (fun other member => proper other (List.mem_cons_of_mem _ member)) joined led
    obtain ⟨above, toAbove, rfl⟩ := walk_join named filled toMiddle
    exact ⟨above, toAbove, by simp⟩

/-- No two paths lead to one place. -/
def LeadApart (tree : FileTree) (files : List Path) : Prop :=
  files.Pairwise fun first second => ∀ place, tree.locate first = .ok place → tree.locate second ≠ .ok place

theorem isTidy_entry {found : Entry} (tidy : tree.root.isTidy = true) (here : tree.entry path = .ok found) :
    path ≠ [] ∧ found.isTidy = true := by
  unfold entry at here
  split at here
  · cases here
  · rename_i place located
    split at here
    · rename_i inner there
      cases here
      exact ⟨(walk_of_locate located).1, (Entry.isTidy_at? tidy there).2⟩
    · cases here

/-- A search below a directory lists its sources under the names that lead to them. -/
theorem exists_named_of_directory (config : Config) {entries : List (Text × Entry)} (tidy : tree.root.isTidy = true)
    (here : tree.entry path = .ok (.directory entries)) :
    path ≠ [] ∧ ∃ names, Entry.Named path (Entry.sourcesAmong config path entries) names := by
  obtain ⟨filled, inside⟩ := isTidy_entry tidy here
  simp only [Entry.isTidy, Bool.and_eq_true, decide_eq_true_eq] at inside
  obtain ⟨names, named, -⟩ := Entry.exists_named_sourcesAmong config path entries inside.1 inside.2
  exact ⟨filled, names, named⟩

/-- No two paths that a search finds lead to one place. -/
theorem walkSources_leadApart {config : Config} {files : List Path} (tidy : tree.root.isTidy = true)
    (found : tree.walkSources path config = .ok files) : tree.LeadApart files := by
  unfold walkSources at found
  split at found
  · cases found
  · cases found
    exact List.pairwise_singleton _ _
  · rename_i entries here
    cases found
    obtain ⟨filled, names, named⟩ := exists_named_of_directory config tidy here
    have apart : tree.LeadApart (Entry.sourcesAmong config path entries) := by
      rw [named.listed, LeadApart, List.pairwise_map]
      refine named.distinct.imp_of_mem ?_
      intro first second firstListed secondListed different place toFirst toSecond
      obtain ⟨-, walked⟩ := walk_of_locate toFirst
      obtain ⟨-, walkedToo⟩ := walk_of_locate toSecond
      obtain ⟨above, toAbove, rfl⟩ := walk_below (named.proper first firstListed) filled walked
      obtain ⟨aboveToo, toAboveToo, same⟩ := walk_below (named.proper second secondListed) filled walkedToo
      cases toAbove.symm.trans toAboveToo
      exact different (List.append_cancel_left same)
    refine (List.mergeSort_perm _ _).symm.pairwise apart ?_
    exact fun apart place led back => apart place back led

end FileTree

end RouteComments
