import RouteComments.Config
import RouteComments.FileTree.Basic

set_option autoImplicit false

namespace RouteComments

open Text

namespace Entry

mutual

/-- The paths of the sources in an entry at a path. Excluded directories are not entered. -/
def sources (config : Config) (path : Path) (name : Text) : Entry → List Path
  | .file _ => if config.acceptsPath path then [path] else []
  | .directory entries => if config.excludes name then [] else sourcesAmong config path entries

/-- The paths of the sources among the entries of a directory at a path. -/
def sourcesAmong (config : Config) (path : Path) : List (Text × Entry) → List Path
  | [] => []
  | (name, entry) :: rest =>
    sources config (path.join (.ofText name)) name entry ++ sourcesAmong config path rest

end

end Entry

namespace FileTree

/-- The sources under a directory, in path order. A file is its own only source. -/
def walkSources (tree : FileTree) (root : Path) (config : Config) : Except Failure (List Path) :=
  match tree.entry root with
  | .error fault => .error (.walk root fault)
  | .ok (.file _) => .ok [root]
  | .ok (.directory entries) => .ok ((Entry.sourcesAmong config root entries).mergeSort Path.precedes)

/-- The directory from which to search upward: that of a file, else the path itself. -/
def startDirectory? (tree : FileTree) (start : Path) : Option Path :=
  if tree.isFile start then start.parent? else some start

/-- The configuration file of a path: the nearest at or above its directory. -/
def findConfigFile? (tree : FileTree) (start : Path) : Option Path :=
  match tree.startDirectory? start with
  | some directory =>
    (directory.upward.map (·.join (.ofText Config.fileName))).find? tree.isFile
  | none => none

/-- What marks the root of a project. -/
def projectMarkers : List Text :=
  ["pom.xml".toList, "build.gradle".toList, "build.gradle.kts".toList, "src/main/resources".toList]

def isProjectRoot (tree : FileTree) (directory : Path) : Bool :=
  projectMarkers.any fun marker => tree.exists? (directory.join (.ofText marker))

/-- The root of the project of a path: the nearest at or above its directory, else that directory. -/
def findProjectRoot (tree : FileTree) (start : Path) : Path :=
  let directory := (tree.startDirectory? start).getD start
  (directory.upward.find? tree.isProjectRoot).getD directory

def loadConfig (tree : FileTree) (path : Path) : Except ConfigError Config :=
  match tree.read path with
  | .ok text => Config.parse path text
  | .error fault => .error (.unreadable path fault)

def discoverConfig (tree : FileTree) (path : Path) : Except ConfigError Config :=
  match tree.findConfigFile? path with
  | some file => tree.loadConfig file
  | none => .ok Config.standard

end FileTree

end RouteComments
