import RouteComments.Proofs.CollectedEdits
import RouteComments.Proofs.DiscoveredFiles

set_option autoImplicit false

namespace RouteComments

open Text

namespace FileTree

variable {tree : FileTree} {path : Path}

theorem spellingFault?_of_append (filled : path ≠ []) {back : Path} (spelled : spellingFault? (path ++ back) = none) :
    spellingFault? path = none := by
  obtain ⟨noZero, -, short⟩ := spellingFault?_eq_none_iff.mp spelled
  rw [Path.bytes_append, List.length_append] at short
  exact spellingFault?_eq_none_iff.mpr ⟨fun zero => noZero (List.mem_append_left _ zero), filled, by omega⟩

/-- What stands on the way to something is there. -/
theorem exists?_of_locate_append (filled : path ≠ []) {back : Path} {place : List Text}
    (located : tree.locate (path ++ .char '/' :: back) = .ok place) : tree.exists? path = true := by
  unfold locate at located
  split at located
  · cases located
  · rename_i spelled
    simp only [route_append_slash tree filled] at located
    obtain ⟨middle, reached, onward⟩ := exists_of_follow_append located
    have here : tree.locate path = .ok middle := by
      simp only [locate, spellingFault?_of_append filled spelled]
      exact reached
    cases segments : Path.segments back with
    | nil => exact absurd segments (pieces_ne_nil _ _)
    | cons segment rest =>
      rw [segments, follow] at onward
      split at onward
      · rename_i entries there
        simp [exists?, entry, here, there, Except.isOk, Except.toBool]
      · cases onward
      · cases onward

theorem join_append_slash (directory front back : Path) (relative : front.isAbsolute = false) (filled : front ≠ []) :
    directory.join (front ++ .char '/' :: back) = directory.join front ++ .char '/' :: back := by
  have relativeToo : Path.isAbsolute (front ++ .char '/' :: back) = false := by
    cases front with
    | nil => exact absurd rfl filled
    | cons first rest => exact relative
  simp only [Path.join, relative, relativeToo, Bool.false_eq_true, if_false]
  split
  · simp
  · simp

/-- Where the files of a project that tell its port are. -/
theorem mem_sources {source : Text × (Text → Option Text)} (listed : source ∈ LocalServer.sources) :
    ∃ name : Text, Path.ofText source.1 = Path.ofText "src/main/resources".toList ++ .char '/' :: Path.ofText name := by
  simp only [LocalServer.sources, LocalServer.yamlFiles, List.map_cons, List.map_nil, List.mem_cons, List.not_mem_nil,
    or_false] at listed
  rcases listed with rfl | rfl | rfl
  · exact ⟨"application.properties".toList, rfl⟩
  · exact ⟨"application.yml".toList, rfl⟩
  · exact ⟨"application.yaml".toList, rfl⟩

/-- A directory that is no root of a project has no file that tells a port. -/
theorem read_of_unmarked {directory : Path} (unmarked : tree.isProjectRoot directory = false)
    {source : Text × (Text → Option Text)} (listed : source ∈ LocalServer.sources) :
    (tree.read (directory.join (.ofText source.1))).toOption = none := by
  cases read : tree.read (directory.join (.ofText source.1)) with
  | error fault => rfl
  | ok text =>
    obtain ⟨place, located, -⟩ := read_eq_ok_iff.mp read
    obtain ⟨name, spelled⟩ := mem_sources listed
    rw [spelled, join_append_slash _ _ _ rfl (by decide)] at located
    have filled : directory.join (.ofText "src/main/resources".toList) ≠ [] := by
      unfold Path.join
      split
      · decide
      · split
        · simp [Path.ofText]
        · simp
    have marked := exists?_of_locate_append filled located
    have marker : "src/main/resources".toList ∈ projectMarkers := by decide
    rw [isProjectRoot, List.any_eq_false] at unmarked
    exact absurd marked (unmarked _ marker)

/-- Whether a directory neither has a configuration file nor is the root of a project. -/
def isOrdinary (tree : FileTree) (directory : Path) : Bool :=
  !tree.isProjectRoot directory && !tree.isFile (directory.join (.ofText Config.fileName))

/-- A place from which the way up passes ordinary directories before it meets the way up from another place. -/
def OrdinaryBelow (tree : FileTree) (place root : Path) : Prop :=
  ∃ directory above between, tree.startDirectory? place = some directory ∧ tree.startDirectory? root = some above ∧
    directory.upward = between ++ above.upward ∧ ∀ passed ∈ between, tree.isOrdinary passed = true

variable {place root : Path}

theorem OrdinaryBelow.discoverConfig (ordinary : tree.OrdinaryBelow place root) :
    tree.discoverConfig place = tree.discoverConfig root := by
  obtain ⟨directory, above, between, start, startToo, chain, passed⟩ := ordinary
  have file : tree.findConfigFile? place = tree.findConfigFile? root := by
    have nothing : (between.map (·.join (.ofText Config.fileName))).find? tree.isFile = none := by
      rw [List.find?_eq_none]
      intro path listed
      obtain ⟨other, member, rfl⟩ := List.mem_map.mp listed
      have plain := passed other member
      simp only [isOrdinary, Bool.and_eq_true, Bool.not_eq_true'] at plain
      simp [plain.2]
    simp only [findConfigFile?, start, startToo, chain, List.map_append, List.find?_append, nothing, Option.none_or]
  rw [FileTree.discoverConfig, FileTree.discoverConfig, file]

theorem exists_upward_eq (path : Path) : ∃ above, path.upward = path :: above := by
  rw [Path.upward]
  exact ⟨_, rfl⟩

/-- Both ways up find the same root of a project, or none, and then there is no port to be found. -/
theorem OrdinaryBelow.read_projectRoot (ordinary : tree.OrdinaryBelow place root)
    {source : Text × (Text → Option Text)} (listed : source ∈ LocalServer.sources) :
    (tree.read ((tree.findProjectRoot place).join (.ofText source.1))).toOption =
      (tree.read ((tree.findProjectRoot root).join (.ofText source.1))).toOption := by
  obtain ⟨directory, above, between, start, startToo, chain, passed⟩ := ordinary
  have nothing : between.find? tree.isProjectRoot = none := by
    rw [List.find?_eq_none]
    intro other member
    have plain := passed other member
    simp only [isOrdinary, Bool.and_eq_true, Bool.not_eq_true'] at plain
    simp [plain.1]
  have climbs : directory.upward.find? tree.isProjectRoot = above.upward.find? tree.isProjectRoot := by
    rw [chain, List.find?_append, nothing, Option.none_or]
  simp only [findProjectRoot, start, startToo, Option.getD_some, climbs]
  cases found : above.upward.find? tree.isProjectRoot with
  | some _ => rfl
  | none =>
    have unmarked {path : Path} (missing : path.upward.find? tree.isProjectRoot = none) :
        tree.isProjectRoot path = false := by
      obtain ⟨higher, shape⟩ := exists_upward_eq path
      rw [List.find?_eq_none] at missing
      exact Bool.eq_false_iff.mpr (missing path (shape ▸ List.mem_cons_self))
    simp only [Option.getD_none]
    rw [read_of_unmarked (unmarked found) listed, read_of_unmarked (unmarked (climbs.trans found)) listed]

end FileTree

theorem LocalServer.port_congr {first second : Text → Option Text}
    (same : ∀ source ∈ sources, first source.1 = second source.1) : port first = port second := by
  have searched : ∀ listed, (∀ source ∈ listed, first source.1 = second source.1) →
      (search first listed).1 = (search second listed).1 := by
    intro listed
    induction listed with
    | nil => intro _; rfl
    | cons source rest ih =>
      intro all
      obtain ⟨file, port?⟩ := source
      have here := all (file, port?) List.mem_cons_self
      have later := ih fun other member => all other (List.mem_cons_of_mem _ member)
      simp only [search, here]
      cases (second file).bind port? with
      | none => exact later
      | some port => rfl
  rw [port, port, searched sources same]

namespace Editor.Session

variable {session : Session} {tree : FileTree}

/-- The base URL is the same from a place and from its root if the way between them is ordinary. -/
theorem baseUrlAt_of_ordinary {place root : Path} (ordinary : tree.OrdinaryBelow place root) :
    session.baseUrlAt tree (some place) = session.baseUrlAt tree (some root) := by
  have port : LocalServer.port (fun file => (tree.read ((tree.findProjectRoot place).join (.ofText file))).toOption) =
      LocalServer.port fun file => (tree.read ((tree.findProjectRoot root).join (.ofText file))).toOption :=
    LocalServer.port_congr fun source listed => ordinary.read_projectRoot listed
  simp only [baseUrlAt, Host.baseUrl, Snapshot.host, Snapshot.ofScope, Option.map_some, ordinary.discoverConfig]
  split
  · rfl
  · exact congrArg LocalServer.baseUrl port

theorem baseUrlAt_of_settings {url : Text} (set : session.settings.baseUrl.bind Config.nonblank? = some url)
    (scope : Option Path) : session.baseUrlAt tree scope = url := by
  obtain ⟨text, given, trimmed⟩ := Option.bind_eq_some_iff.mp set
  have value (config : Config) : (config.withBaseUrl session.settings.baseUrl).value? "baseUrl".toList = some url := by
    rw [given]
    exact trimmed
  simp only [baseUrlAt, Host.baseUrl, Snapshot.host, Snapshot.ofScope, value]

/-- The text of a file in the workspace is that of its last open document. -/
theorem readDocument_workspace {file : Path} {document : OpenDocument}
    (opened : session.documents.latest? file = some document) :
    (session.workspace tree).readDocument tree file = .ok document.content := by
  have buffers : (session.workspace tree).buffers = session.documents.buffers := rfl
  simp only [Snapshot.readDocument, buffers, Store.get?_buffers, opened, Option.map_some]

/-- The command collects for an open file the edits of its last document, with the base URL of the workspace. -/
theorem lookup_collected (placed : ∀ root, session.root = some root → root.Rooted) {files : List Path} {file : Path}
    {uri : Uri} {document : OpenDocument} (found : (session.workspace tree).findFiles tree = .ok files)
    (listed : file ∈ files) (named : Uri.ofPath? file = some uri)
    (opened : session.documents.latest? file = some document) :
    (session.collected tree).lookup uri = staleEdits? (session.annotatorAt tree session.root)
      { path := file, text := document.content } := by
  have contributes {other : Path} (openedToo : session.documents.latest? other = some document) :
      (session.workspace tree).contribution? tree (session.annotatorAt tree session.root) other =
        (Uri.ofPath? other).bind fun uri => (staleEdits? (session.annotatorAt tree session.root)
          { path := file, text := document.content }).map fun edits => (uri, edits) := by
    simp only [Snapshot.contribution?, readDocument_workspace openedToo, staleEdits?_path _ other file]
  rw [collected_eq found]
  refine Keyed.lookup_ofList_filterMap listed ?_ ?_
  · rw [contributes opened, named]
    rfl
  · intro other listedToo entry added same
    -- files with one URI are one file, and so have one last document
    obtain ⟨name, edits⟩ := entry
    obtain ⟨-, -, namedToo, -⟩ := Snapshot.contribution?_eq_some.mp added
    have one : Uri.ofPath? other = Uri.ofPath? file := by rw [named, namedToo, ← same]
    have rooted : ∀ path ∈ files, path.Rooted := fun _ => rooted_of_found placed found
    have alike := (Uri.ofPath?_eq_iff (rooted other listedToo) (rooted file listed)).mp one
    rw [contributes ((Store.latest?_of_same alike _).trans opened), namedToo] at added
    obtain ⟨more, stale, pair⟩ := Option.map_eq_some_iff.mp added
    cases pair
    exact stale

/-- The action offers the edits of its document, with the base URL of the document. -/
theorem edits_codeAction? (tree : FileTree) {uri : Uri} {document : OpenDocument}
    (stored : session.documents.lookup uri = some document) {only : Option (List Text)}
    (wanted : CodeAction.isWanted only = true) (path : Path) :
    (session.codeAction? tree uri only).map (·.edits) =
      staleEdits? (session.annotatorAt tree uri.filePath?) { path, text := document.content } := by
  have opened : session.openDocument? tree uri =
      some ({ path := uri.filePath?.getD (.ofText uri.path), text := document.content },
        session.annotatorAt tree uri.filePath?) := by
    simp only [openDocument?, stored, Option.map_some]
    rfl
  rw [staleEdits?_path _ path (uri.filePath?.getD (.ofText uri.path))]
  generalize ({ path := uri.filePath?.getD (.ofText uri.path), text := document.content } : Document) = doc at opened ⊢
  simp only [codeAction?, opened, Option.bind_some, CodeAction.for?, wanted, Bool.true_and, staleEdits?,
    Annotator.annotate]
  by_cases controller : Mapping.isController doc.text = true
  · by_cases current : (Annotator.plan (session.annotatorAt tree uri.filePath?) doc).apply doc = doc.text
    · simp [current]
    · simp [controller, current]
  · simp [controller]

/-- All open documents of a file have one text. -/
def AgreeOn (session : Session) (path : Path) (text : Text) : Prop :=
  ∀ uri document other, (uri, document) ∈ session.documents → uri.filePath? = some other → other.same path = true →
    document.content = text

theorem exists_latest? {uri : Uri} {path file : Path} {document : OpenDocument}
    (stored : session.documents.lookup uri = some document) (named : uri.filePath? = some path)
    (same : path.same file = true) : ∃ latest, session.documents.latest? file = some latest := by
  have member : (uri, document) ∈ session.documents := Keyed.mem_of_lookup stored
  cases latest : session.documents.latest? file with
  | some found => exact ⟨found, rfl⟩
  | none =>
    have different := Store.latest?_eq_none latest member named
    rw [same] at different
    cases different

/-- The command and the action have the same edits for an open document that the workspace finds exactly if two base
URLs lead to the same edits: that of the workspace on the last text of the file, and that of the document on its own
text. They do if all open documents of the file have one text and the settings give the base URL, or the way from the
root to the document is ordinary. -/
theorem command_agrees_with_action_iff (session : Session) (tree : FileTree) (answer : EditAnswer) {rootUri uri : Uri}
    {root path file : Path} {files : List Path} {document : OpenDocument} {only : Option (List Text)}
    (scope : session.root = some root) (placed : rootUri.filePath? = some root)
    (found : tree.walkSources root (session.workspace tree).config = .ok files) (listed : file ∈ files)
    (stored : session.documents.lookup uri = some document) (named : uri.filePath? = some path)
    (same : path.same file = true) (wanted : CodeAction.isWanted only = true) :
    ∃ fileUri latest, Uri.ofPath? file = some fileUri ∧ session.documents.latest? file = some latest ∧
      session.requested tree answer = (if (session.collected tree).isEmpty then []
        else [Notice.applyEdit (session.workspaceEdit (session.collected tree))]) ∧
      ((session.collected tree).lookup fileUri = (session.codeAction? tree uri only).map (·.edits) ↔
        staleEdits? (session.annotatorAt tree (some root)) { path, text := latest.content } =
          staleEdits? (session.annotatorAt tree (some path)) { path, text := document.content }) ∧
      (session.AgreeOn path document.content →
        (session.settings.baseUrl.bind Config.nonblank?).isSome = true ∨ tree.OrdinaryBelow path root →
        (session.collected tree).lookup fileUri = (session.codeAction? tree uri only).map (·.edits)) := by
  have rooted : ∀ start, session.root = some start → start.Rooted := by
    intro start here
    cases scope.symm.trans here
    exact Uri.rooted_filePath? placed
  have search : (session.workspace tree).findFiles tree = .ok files := by
    have scopeToo : (session.workspace tree).scope = some root := scope
    simpa only [Snapshot.findFiles, scopeToo] using found
  obtain ⟨fileUri, namedFile⟩ := Uri.exists_uri (rooted_of_found rooted search listed)
  obtain ⟨latest, opened⟩ := exists_latest? stored named same
  have command := lookup_collected rooted search listed namedFile opened
  rw [scope, staleEdits?_path _ file path] at command
  have action := edits_codeAction? tree stored wanted path
  rw [named] at action
  refine ⟨fileUri, latest, namedFile, opened, requested_eq session tree answer, by rw [command, action], ?_⟩
  intro agree settled
  have text : latest.content = document.content := by
    obtain ⟨other, otherPath, member, namedToo, sameToo⟩ := Store.latest?_eq_some opened
    refine agree other latest otherPath member namedToo ?_
    rw [PathMap.same_iff] at same sameToo ⊢
    exact sameToo.trans same.symm
  have base : session.baseUrlAt tree (some root) = session.baseUrlAt tree (some path) := by
    rcases settled with set | ordinary
    · obtain ⟨url, given⟩ := Option.isSome_iff_exists.mp set
      rw [baseUrlAt_of_settings given, baseUrlAt_of_settings given]
    · exact (baseUrlAt_of_ordinary ordinary).symm
  rw [command, action, text]
  simp only [annotatorAt, base]

section Examples

def workspaceUri : Uri :=
  { scheme := Uri.fileScheme, authority := some .blank, path := "/w".toList, rootless := false, tail := [] }

/-- The URI of a controller in a directory of the workspace. -/
def controllerUri : Uri :=
  { workspaceUri with path := "/w/sub/A.java".toList }

def openController : OpenDocument where
  content := "@Controller class A \x7b\n    @GetMapping(\"/x\")\n    public void x() \x7b\x7d\n\x7d\n".toList
  version := 1

def controllerSession : Session :=
  { start with
    phase := .ready
    root := some (.ofText "/w".toList)
    documents := [(controllerUri, openController)] }

/-- A workspace with the controller in a directory that has some more entries. -/
def workspaceWith (entries : List (Text × Entry)) : FileTree where
  root := .directory [("w".toList, .directory [("sub".toList,
    .directory (("A.java".toList, .file (.text openController.content)) :: entries))])]
  current := []

/-- The way to the controller is ordinary in a workspace with nothing else. -/
theorem ordinaryWorkspace_action_agrees :
    (workspaceWith []).OrdinaryBelow (.ofText "/w/sub/A.java".toList) (.ofText "/w".toList) ∧
      ((controllerSession.collected (workspaceWith [])).lookup controllerUri).isSome = true ∧
      (controllerSession.collected (workspaceWith [])).lookup controllerUri =
        (controllerSession.codeAction? (workspaceWith []) controllerUri none).map (·.edits) := by
  have ordinary : (workspaceWith []).OrdinaryBelow (.ofText "/w/sub/A.java".toList) (.ofText "/w".toList) :=
    ⟨.ofText "/w/sub".toList, .ofText "/w".toList, [.ofText "/w/sub".toList], by decide +kernel⟩
  have alone : controllerSession.AgreeOn (.ofText "/w/sub/A.java".toList) openController.content := by
    intro uri document other stored named same
    obtain ⟨rfl, rfl⟩ := Prod.mk.inj (List.mem_singleton.mp stored)
    rfl
  have stale : ((controllerSession.collected (workspaceWith [])).lookup controllerUri).isSome = true := by
    decide +kernel
  have named : Uri.ofPath? (.ofText "/w/sub/A.java".toList) = some controllerUri := by decide +kernel
  obtain ⟨fileUri, latest, found, -, -, -, agrees⟩ :=
    command_agrees_with_action_iff controllerSession (workspaceWith []) .applied
      (show controllerSession.root = some (.ofText "/w".toList) from rfl)
      (show workspaceUri.filePath? = some (.ofText "/w".toList) by decide +kernel)
      (show (workspaceWith []).walkSources (.ofText "/w".toList)
        (controllerSession.workspace (workspaceWith [])).config = .ok [.ofText "/w/sub/A.java".toList] by
          decide +kernel)
      List.mem_cons_self (show controllerSession.documents.lookup controllerUri = some openController by decide +kernel)
      (by decide +kernel) (PathMap.same_self _) (show CodeAction.isWanted none = true from rfl)
  cases named.symm.trans found
  exact ⟨ordinary, stale, agrees alone (.inr ordinary)⟩

/-- A project below the root of the workspace that has a port of its own. -/
def nestedProject : FileTree :=
  workspaceWith [("pom.xml".toList, .file (.text [])), ("src".toList, .directory [("main".toList, .directory
    [("resources".toList, .directory
      [("application.properties".toList, .file (.text "server.port=9000\n".toList))])])])]

theorem nestedProject_action_differs :
    workspaceUri.filePath? = controllerSession.root ∧
      nestedProject.walkSources (.ofText "/w".toList) (controllerSession.workspace nestedProject).config =
        .ok [.ofText "/w/sub/A.java".toList] ∧
      controllerUri.filePath? = some (.ofText "/w/sub/A.java".toList) ∧
      Uri.ofPath? (.ofText "/w/sub/A.java".toList) = some controllerUri ∧
      controllerSession.documents.lookup controllerUri = some openController ∧
      (controllerSession.collected nestedProject).lookup controllerUri ≠
        (controllerSession.codeAction? nestedProject controllerUri none).map (·.edits) := by
  decide +kernel

end Examples

end Editor.Session

end RouteComments
