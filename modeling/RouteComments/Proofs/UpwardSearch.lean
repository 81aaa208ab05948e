import RouteComments.Proofs.DirectoryWalks

set_option autoImplicit false

namespace RouteComments

open Text

namespace FileTree

variable {tree : FileTree} {path above : Path} {place lower home : List Text}

/-- What marks a directory: names in it, and what has to stand there. -/
structure Mark where
  names : List Text
  fits : Entry → Bool
  plain : ∀ name ∈ names, ∀ step ∈ pieces '/' name, isPlainStep step = true

namespace Mark

def configuration : Mark where
  names := [Config.fileName]
  fits found := !found.isDirectory
  plain := by decide

/-- A file or directory that only the root of a project has. -/
def project : Mark where
  names := projectMarkers
  fits _ := true
  plain := by decide

end Mark

section Marks

variable {mark : Mark} {hit directory : Path}

def Marked (tree : FileTree) (mark : Mark) (place : List Text) : Prop :=
  ∃ name ∈ mark.names, ∃ found, tree.root.at? (place ++ pieces '/' name) = some found ∧ mark.fits found = true

/-- The directory at a place has a mark to which a path through the directory is not too long. -/
def Reachable (tree : FileTree) (mark : Mark) (directory : Path) (place : List Text) : Prop :=
  ∃ name ∈ mark.names, (directory.join (.ofText name)).bytes.length < pathLimit ∧
    ∃ found, tree.root.at? (place ++ pieces '/' name) = some found ∧ mark.fits found = true

def sees (tree : FileTree) (mark : Mark) (directory : Path) : Bool :=
  mark.names.any fun name => (tree.entry (directory.join (.ofText name))).toOption.any mark.fits

theorem any_toOption_entry {fits : Entry → Bool} :
    (tree.entry path).toOption.any fits = true ↔ ∃ found, tree.entry path = .ok found ∧ fits found = true := by
  cases tree.entry path with
  | error fault => simp [Except.toOption]
  | ok found => simp [Except.toOption]

theorem LeadsTo.sees_iff (leads : tree.LeadsTo directory place) (whole : .char '\x00' ∉ directory) :
    tree.sees mark directory = true ↔ tree.Reachable mark directory place := by
  rw [sees, List.any_eq_true, Reachable]
  refine exists_congr fun name => and_congr_right fun known => ?_
  simp only [any_toOption_entry, entry_eq_ok_iff, LeadsTo.locate_join (mark.plain name known) leads whole,
    exists_and_left, exists_eq_left, and_assoc]

theorem isFile_eq (tree : FileTree) (path : Path) :
    tree.isFile path = (tree.entry path).toOption.any fun found => !found.isDirectory := by
  unfold isFile
  match tree.entry path with
  | .error _ => rfl
  | .ok (.file _) => rfl
  | .ok (.directory _) => rfl

theorem sees_configuration (tree : FileTree) :
    tree.sees .configuration = fun directory => tree.isFile (directory.join (.ofText Config.fileName)) := by
  funext directory
  simp only [sees, Mark.configuration, List.any_cons, List.any_nil, Bool.or_false, isFile_eq]

theorem sees_project (tree : FileTree) : tree.sees .project = tree.isProjectRoot := by
  funext directory
  unfold sees isProjectRoot exists?
  congr 1
  funext marker
  cases tree.entry (directory.join (.ofText marker)) with
  | error fault => rfl
  | ok found => rfl

theorem Reachable.marked (reachable : tree.Reachable mark directory place) : tree.Marked mark place := by
  obtain ⟨name, known, -, found⟩ := reachable
  exact ⟨name, known, found⟩

end Marks

section Nearest

variable {mark : Mark} {hit directory start : Path} {found : Entry}

/-- No marked directory at or above a place is nearer to it than another that is at or above it. -/
def NearestAbove (marked : List Text → Prop) (home place : List Text) : Prop :=
  place <+: home ∧ ∀ other, other <+: home → marked other → other <+: place

/-- The way up from a directory first finds a mark at or above the directory, and misses none before it that is at or
above the directory and to which the path is too long. -/
def FindsAbove (tree : FileTree) (mark : Mark) (directory : Path) (home : List Text) : Prop :=
  ∀ hit, directory.upward.find? (tree.sees mark) = some hit → ∃ place, tree.LeadsTo hit place ∧ place <+: home ∧
    ∀ passed ∈ directory.upward, ∀ other, tree.LeadsTo passed other → other <+: home → tree.Marked mark other →
      ¬ other <+: place → tree.Reachable mark passed other

theorem zero_not_mem_upward (whole : .char '\x00' ∉ directory) (member : path ∈ directory.upward) :
    .char '\x00' ∉ path :=
  fun zero => whole ((Path.prefix_of_mem_upward member).subset zero)

/-- What is found first is a mark of a directory. -/
theorem LeadsTo.reachable_of_find? (there : tree.LeadsTo hit place) (whole : .char '\x00' ∉ directory)
    (found : directory.upward.find? (tree.sees mark) = some hit) : tree.Reachable mark hit place :=
  (there.sees_iff (zero_not_mem_upward whole (List.mem_of_find?_eq_some found))).mp (List.find?_some found)

/-- The way up from a directory passes one whose mark can be reached. -/
def Passes (tree : FileTree) (mark : Mark) (directory : Path) : Prop :=
  ∃ passed ∈ directory.upward, ∃ place, tree.LeadsTo passed place ∧ tree.Reachable mark passed place

theorem LeadsTo.isSome_find?_iff (leads : tree.LeadsTo directory home) (whole : .char '\x00' ∉ directory) :
    (directory.upward.find? (tree.sees mark)).isSome = true ↔ tree.Passes mark directory := by
  rw [List.find?_isSome]
  constructor
  · rintro ⟨passed, member, seen⟩
    obtain ⟨place, led⟩ := leads.climb member
    exact ⟨passed, member, place, led, (led.sees_iff (zero_not_mem_upward whole member)).mp seen⟩
  · rintro ⟨passed, member, place, led, reachable⟩
    exact ⟨passed, member, (led.sees_iff (zero_not_mem_upward whole member)).mpr reachable⟩

theorem findsAbove_iff (leads : tree.LeadsTo directory home) (whole : .char '\x00' ∉ directory) :
    tree.FindsAbove mark directory home ↔ ∀ hit, directory.upward.find? (tree.sees mark) = some hit →
      ∃ place, tree.LeadsTo hit place ∧ NearestAbove (tree.Marked mark) home place := by
  refine forall_congr' fun hit => forall_congr' fun found => exists_congr fun place => and_congr_right fun there => ?_
  refine and_congr_right fun _ => ?_
  constructor
  · intro reached other encloses marked
    by_contra below
    -- a marked directory that is nearer was passed, and there its mark was not seen
    obtain ⟨-, before, after, way, unseen⟩ := List.find?_eq_some_iff_append.mp found
    obtain ⟨passed, member, led⟩ := (leads.passes way there encloses).resolve_left below
    have listed : passed ∈ directory.upward := way ▸ List.mem_append_left _ member
    have reachable := reached passed listed other led encloses marked below
    have seen := (led.sees_iff (zero_not_mem_upward whole listed)).mpr reachable
    have missed := unseen passed member
    rw [seen] at missed
    cases missed
  · intro nearest passed _ other _ encloses marked below
    exact absurd (nearest other encloses marked) below

/-- Without steps back up, and with paths that are not too long, a way up finds what is at or above its start. -/
theorem LeadsTo.findsAbove (leads : tree.LeadsTo directory home) (straight : Path.twoDots ∉ directory.stepSegments)
    (short : ∀ name ∈ mark.names, directory.bytes.length + (Path.ofText name).bytes.length + 1 < pathLimit) :
    tree.FindsAbove mark directory home := by
  intro hit found
  have member := List.mem_of_find?_eq_some found
  obtain ⟨place, there⟩ := leads.climb member
  refine ⟨place, there, leads.prefix_of_straight straight member there, ?_⟩
  rintro passed listed other - - ⟨name, known, marked⟩ -
  refine ⟨name, known, ?_, marked⟩
  have joined := Path.length_bytes_join_le passed (.ofText name)
  have limit := short name known
  obtain ⟨back, shape⟩ := Path.prefix_of_mem_upward listed
  rw [← shape, Path.bytes_append, List.length_append] at limit
  omega

end Nearest

section Starts

variable {start directory : Path} {found : Entry}

/-- The directory of what is at a place: a file's is the one above. -/
def homeOf (place : List Text) : Entry → List Text
  | .file _ => place.dropLast
  | .directory _ => place

/-- The path without the name of a file leads to the directory of the file. -/
theorem parent_of_file {content : Content} (led : tree.walk start = .ok place)
    (there : tree.root.at? place = some (.file content)) :
    ∃ directory, start.parent? = some directory ∧ tree.LeadsTo directory place.dropLast := by
  obtain ⟨before, last, split⟩ := (List.eq_nil_or_concat' _).resolve_left (segments_route_ne_nil tree start)
  rw [walk, split] at led
  obtain ⟨middle, toMiddle, toPlace⟩ := exists_of_follow_append led
  obtain ⟨-, step, forward⟩ := follow_file toPlace there
  -- the last segment is the name of the file: it is the step that the parent lacks
  have above : place.dropLast = middle := by
    rcases follow_segment toPlace with ⟨trivial, -⟩ | ⟨dots, -⟩ | ⟨name, rfl⟩
    · simp [trivial] at step
    · exact absurd dots forward
    · exact List.dropLast_concat
  have steps : start.stepSegments = before.filter (!Path.isTrivial ·) ++ [last] := by
    rw [← filter_route tree start, split, List.filter_append, List.filter_singleton, step]
    rfl
  cases up : start.parent? with
  | none =>
    have none := Path.stepSegments_of_parent?_eq_none up
    rw [steps] at none
    simp at none
  | some directory =>
    obtain ⟨-, absolute, shape⟩ := Path.isParent_of_parent? up
    have kept : directory.stepSegments = before.filter (!Path.isTrivial ·) := by
      rcases shape with ⟨-, none⟩ | ⟨name, shape⟩
      · rw [steps] at none
        simp at none
      · exact (List.append_inj_left' (steps.symm.trans shape) rfl).symm
    have ends := directory_of_follow_cons toPlace
    refine ⟨directory, rfl, ?_⟩
    rw [above]
    refine leadsTo_iff.mpr ⟨?_, ends⟩
    rw [kept, route_of_isAbsolute absolute, follow_filter_iff ends]
    exact toMiddle

/-- The search from a path that leads to something starts in its directory. -/
theorem exists_startDirectory (located : tree.locate start = .ok place) (there : tree.root.at? place = some found) :
    ∃ directory, tree.startDirectory? start = some directory ∧ tree.LeadsTo directory (homeOf place found) ∧
      directory <+: start ∧ directory.stepSegments <+: start.stepSegments := by
  obtain ⟨-, led⟩ := locate_eq_ok_iff.mp located
  have here : tree.entry start = .ok found := entry_eq_ok_iff.mpr ⟨place, located, there⟩
  cases found with
  | file content =>
    obtain ⟨directory, up, leads⟩ := parent_of_file led there
    have parent := Path.isParent_of_parent? up
    exact ⟨directory, by simp [startDirectory?, isFile, here, up], leads, parent.spelled, parent.stepSegments_isPrefix⟩
  | directory entries =>
    exact ⟨start, by simp [startDirectory?, isFile, here], ⟨led, entries, there⟩, List.prefix_refl _,
      List.prefix_refl _⟩

end Starts

section Reports

variable {start directory hit : Path} {found : Entry}

/-- The two searches from a path report directories at or above its own, and none that has one nearer. Where there is no
project, its own directory is reported. -/
structure ReportsNearest (tree : FileTree) (start : Path) (home : List Text) : Prop where
  configuration : ∀ file, tree.findConfigFile? start = some file →
    ∃ place, tree.locate file = .ok (place ++ [Config.fileName]) ∧ tree.Marked .configuration place ∧
      NearestAbove (tree.Marked .configuration) home place
  project : ∃ place, tree.LeadsTo (tree.findProjectRoot start) place ∧ (tree.Marked .project place ∨ place = home) ∧
    NearestAbove (tree.Marked .project) home place

theorem findConfigFile?_eq (started : tree.startDirectory? start = some directory) :
    tree.findConfigFile? start =
      (directory.upward.find? (tree.sees .configuration)).map (·.join (.ofText Config.fileName)) := by
  simp only [findConfigFile?, started, List.find?_map, sees_configuration]
  rfl

theorem findProjectRoot_eq (started : tree.startDirectory? start = some directory) :
    tree.findProjectRoot start = (directory.upward.find? (tree.sees .project)).getD directory := by
  simp only [findProjectRoot, started, Option.getD_some, sees_project]

/-- The path of the configuration file that is found first leads to it. -/
theorem LeadsTo.locate_found (there : tree.LeadsTo hit place) (whole : .char '\x00' ∉ directory)
    (found : directory.upward.find? (tree.sees .configuration) = some hit) :
    tree.locate (hit.join (.ofText Config.fileName)) = .ok (place ++ [Config.fileName]) := by
  obtain ⟨name, known, short, file, here, -⟩ := there.reachable_of_find? whole found
  cases List.mem_singleton.mp known
  have wholeHit := zero_not_mem_upward whole (List.mem_of_find?_eq_some found)
  exact ((LeadsTo.locate_join (Mark.configuration.plain _ known) there wholeHit).mpr ⟨short, rfl, here⟩).1

/-- The two searches report a mark exactly if one is passed. Without one the directory of the search is the root of its
project. -/
structure ReportsPassed (tree : FileTree) (start directory : Path) : Prop where
  configuration : (tree.findConfigFile? start).isSome = true ↔ tree.Passes .configuration directory
  project : tree.Passes .project directory →
    ∃ place, tree.LeadsTo (tree.findProjectRoot start) place ∧ tree.Marked .project place
  unmarked : ¬ tree.Passes .project directory → tree.findProjectRoot start = directory

theorem reportsPassed (started : tree.startDirectory? start = some directory)
    (leads : tree.LeadsTo directory home) (whole : .char '\x00' ∉ directory) :
    tree.ReportsPassed start directory where
  configuration := by rw [findConfigFile?_eq started, Option.isSome_map, leads.isSome_find?_iff whole]
  project passes := by
    obtain ⟨hit, found⟩ := Option.isSome_iff_exists.mp ((leads.isSome_find?_iff whole).mpr passes)
    obtain ⟨place, there⟩ := leads.climb (List.mem_of_find?_eq_some found)
    rw [findProjectRoot_eq started, found]
    exact ⟨place, there, (there.reachable_of_find? whole found).marked⟩
  unmarked none := by
    rw [← leads.isSome_find?_iff whole, Option.not_isSome_iff_eq_none] at none
    rw [findProjectRoot_eq started, none]
    rfl

theorem reportsNearest_iff (started : tree.startDirectory? start = some directory)
    (leads : tree.LeadsTo directory home) (whole : .char '\x00' ∉ directory) :
    tree.ReportsNearest start home ↔
      tree.FindsAbove .configuration directory home ∧ tree.FindsAbove .project directory home := by
  rw [findsAbove_iff leads whole, findsAbove_iff leads whole]
  constructor
  · rintro ⟨configuration, project⟩
    refine ⟨fun hit found => ?_, fun hit found => ?_⟩
    · obtain ⟨place, there⟩ := leads.climb (List.mem_of_find?_eq_some found)
      obtain ⟨other, located, -, nearest⟩ := configuration _ (by rw [findConfigFile?_eq started, found]; rfl)
      have same := Except.ok.inj ((there.locate_found whole found).symm.trans located)
      exact ⟨place, there, List.append_cancel_right same ▸ nearest⟩
    · obtain ⟨place, there, -, nearest⟩ := project
      rw [findProjectRoot_eq started, found] at there
      exact ⟨place, there, nearest⟩
  · rintro ⟨configuration, project⟩
    refine ⟨fun file reported => ?_, ?_⟩
    · rw [findConfigFile?_eq started] at reported
      obtain ⟨hit, found, rfl⟩ := Option.map_eq_some_iff.mp reported
      obtain ⟨place, there, nearest⟩ := configuration hit found
      exact ⟨place, there.locate_found whole found, (there.reachable_of_find? whole found).marked, nearest⟩
    · rw [findProjectRoot_eq started]
      cases found : directory.upward.find? (tree.sees .project) with
      | none => exact ⟨home, leads, .inr rfl, List.prefix_refl _, fun _ encloses _ => encloses⟩
      | some hit =>
        obtain ⟨place, there, nearest⟩ := project hit found
        exact ⟨place, there, .inl (there.reachable_of_find? whole found).marked, nearest⟩

theorem Mark.length_le : (∀ name ∈ Mark.configuration.names, (Path.ofText name).bytes.length ≤ 22) ∧
    ∀ name ∈ Mark.project.names, (Path.ofText name).bytes.length ≤ 22 := by
  decide

/-- From every path that leads to something, both searches go up a way that ends, and report something if it passes a
mark. They report the nearest directories at or above their start exactly when what they find first is at or above it,
and nothing before it is missed for the length of its path; so they do for paths that do not lead back up and are not
that long. -/
theorem searches_report_nearest_iff (located : tree.locate start = .ok place)
    (there : tree.root.at? place = some found) :
    ∃ directory, tree.startDirectory? start = some directory ∧ tree.LeadsTo directory (homeOf place found) ∧
      directory.upward.length ≤ start.length + 1 ∧ tree.ReportsPassed start directory ∧
      (tree.ReportsNearest start (homeOf place found) ↔ tree.FindsAbove .configuration directory (homeOf place found) ∧
        tree.FindsAbove .project directory (homeOf place found)) ∧
      (.parent ∉ start.components → start.bytes.length + 23 < pathLimit →
        tree.ReportsNearest start (homeOf place found)) := by
  obtain ⟨directory, started, leads, spelled, steps⟩ := exists_startDirectory located there
  obtain ⟨wholeStart, -, -⟩ := spellingFault?_eq_none_iff.mp (locate_eq_ok_iff.mp located).1
  have whole : .char '\x00' ∉ directory := fun zero => wholeStart (spelled.subset zero)
  have nearest := reportsNearest_iff started leads whole
  have upward := Path.length_upward_le directory
  have shorter := spelled.length_le
  refine ⟨directory, started, leads, by omega, reportsPassed started leads whole, nearest, fun forward short =>
    nearest.mpr ?_⟩
  have straight : Path.twoDots ∉ directory.stepSegments :=
    fun dots => Path.twoDots_not_mem_stepSegments forward (steps.subset dots)
  have bytes : directory.bytes.length ≤ start.bytes.length := by
    obtain ⟨back, rfl⟩ := spelled
    simp [Path.bytes_append]
  have fits : ∀ name : Text, (Path.ofText name).bytes.length ≤ 22 →
      directory.bytes.length + (Path.ofText name).bytes.length + 1 < pathLimit := by
    intro name limit
    omega
  exact ⟨leads.findsAbove straight fun name known => fits name (Mark.length_le.1 name known),
    leads.findsAbove straight fun name known => fits name (Mark.length_le.2 name known)⟩

section Examples

/-- A project with its configuration, in a directory of the current one. -/
def innerProject : FileTree where
  root := .directory [("w".toList, .directory [("a".toList, .directory
    [(Config.fileName, .file (.text [])), ("pom.xml".toList, .file (.text [])),
      ("web".toList, .directory [("A.java".toList, .file (.text []))])])])]
  current := ["w".toList]

theorem innerProject_reports_nearest :
    innerProject.findConfigFile? (.ofText "./a/web/A.java".toList) =
        some (.ofText "./a/endpoint-comments.toml".toList) ∧
      innerProject.findProjectRoot (.ofText "./a/web/A.java".toList) = .ofText "./a".toList ∧
      innerProject.ReportsNearest (.ofText "./a/web/A.java".toList) ["w".toList, "a".toList, "web".toList] := by
  refine ⟨by decide +kernel, by decide +kernel, ?_⟩
  have located : innerProject.locate (.ofText "./a/web/A.java".toList) =
      .ok ["w".toList, "a".toList, "web".toList, "A.java".toList] := by decide +kernel
  have there : innerProject.root.at? ["w".toList, "a".toList, "web".toList, "A.java".toList] =
      some (.file (.text [])) := by rfl
  obtain ⟨-, -, -, -, -, -, nearest⟩ := searches_report_nearest_iff located there
  exact nearest (by decide) (by decide)

theorem backtrackedPath_reports_below :
    innerProject.locate (.ofText "a/..".toList) = .ok ["w".toList] ∧
      (innerProject.root.at? ["w".toList]).any (·.isDirectory) = true ∧
      innerProject.findConfigFile? (.ofText "a/..".toList) = some (.ofText "a/endpoint-comments.toml".toList) ∧
      innerProject.findProjectRoot (.ofText "a/..".toList) = .ofText "a".toList ∧
      ¬ innerProject.ReportsNearest (.ofText "a/..".toList) ["w".toList] := by
  have reported : innerProject.findConfigFile? (.ofText "a/..".toList) =
      some (.ofText "a/endpoint-comments.toml".toList) := by decide +kernel
  refine ⟨by decide +kernel, by decide +kernel, reported, by decide +kernel, fun nearest => ?_⟩
  obtain ⟨place, located, -, encloses, -⟩ := nearest.configuration _ reported
  have below : innerProject.locate (.ofText "a/endpoint-comments.toml".toList) =
      .ok (["w".toList, "a".toList] ++ [Config.fileName]) := by decide +kernel
  have same := List.append_cancel_right (Except.ok.inj (located.symm.trans below))
  subst same
  exact absurd encloses (by decide)

end Examples

end Reports

end FileTree

end RouteComments
