import RouteComments.Cli.Run

set_option autoImplicit false

namespace RouteComments.Main

open Text

def step (place : List Text) : Path.Component → List Text
  | .root => []
  | .current => place
  | .parent => place.dropLast
  | .name name => place ++ [name.shown]

def placesOn (place : List Text) : List Path.Component → List (List Text)
  | [] => [place]
  | component :: rest => place :: placesOn (step place component) rest

def placeOf (current : List Text) (path : Path) : List Text :=
  path.components.foldl step current

def diskPath (place : List Text) : String :=
  String.ofList ('/' :: joinWith ['/'] place)

/-- The files above a target that a run looks at. -/
def landmarks : List (List Text) :=
  ([Config.fileName] ++ FileTree.projectMarkers ++ LocalServer.sources.map Prod.fst).map (pieces '/')

/-- The content of a file on the disk, if there is one. -/
def loadFile? (place : List Text) : IO (Option Content) := do
  try
    let bytes ← IO.FS.readBinFile (diskPath place)
    return some (Content.ofBytes bytes.toList)
  catch _ => return none

/-- The names in a directory on the disk, if there is one. -/
def names? (place : List Text) : IO (Option (List Text)) := do
  try
    let entries ← (System.mkFilePath [diskPath place]).readDir
    return some (entries.toList.map fun entry => entry.fileName.toList)
  catch _ => return none

/-- Loads what stands at a place, without what is inside a directory. -/
def loadShallow (root : Entry) (place : List Text) : IO Entry := do
  match ← names? place with
  | some _ => return root.makeDirectory place
  | none =>
    match ← loadFile? place with
    | some content => return Entry.put (.file content) place root
    | none => return root

/-- Loads a directory with what is inside. Only sources are read; other files are known by name. -/
partial def loadDeep (config : Config) (place : List Text) : IO (Option Entry) := do
  match ← names? place with
  | some names =>
    let kept := names.filter (!config.excludes ·)
    let entries ← kept.filterMapM fun name => do
      return (← loadDeep config (place ++ [name])).map fun entry => (name, entry)
    return some (.directory entries)
  | none =>
    if config.acceptsPath (.ofText (diskPath place).toList) then
      return (← loadFile? place).map .file
    else return some (.file (.text []))

/-- Loads what stands at a place and the landmarks there and above. -/
def loadAbove (root : Entry) (place : List Text) : IO Entry :=
  ((List.range (place.length + 1)).map place.take).foldlM (fun root above => do
    let root ← loadShallow root above
    landmarks.foldlM (fun root landmark => loadShallow root (above ++ landmark)) root) root

/-- Loads a target and what is inside, as its configuration has it. -/
def loadTarget (tree : FileTree) (target : Path) : IO FileTree := do
  let place := placeOf tree.current target
  let root ← (placesOn tree.current target.components).foldlM loadAbove tree.root
  let config := match { tree with root }.discoverConfig target with
    | .ok config => config
    | .error _ => Config.standard
  match root.at? place with
  | some (.directory _) =>
    match ← loadDeep config place with
    | some entry => return { tree with root := merge place entry root }
    | none => return { tree with root }
  | _ => return { tree with root }
where
  /-- Adds the files of an entry at a place, besides those that are known there. -/
  merge (place : List Text) (entry root : Entry) : Entry :=
    (entry.files place).foldl (fun root (file, content) =>
      if (root.at? file).isSome then root else Entry.put (.file content) file root) root

/-- Writes the files of a tree that differ from those of another. -/
def writeChanges (before after : FileTree) : IO Unit :=
  (after.root.files []).forM fun (place, content) =>
    match content, before.root.at? place with
    | .text text, some (.file (.text old)) =>
      if text = old then pure () else IO.FS.writeFile (diskPath place) (String.ofList text)
    | _, _ => pure ()

/-- Runs the words of a command line on the disk, of which the part that a run can look at is loaded into a tree;
gives the exit code. -/
def run (words : List Text) : IO UInt32 := do
  let current := placeOf [] (.ofText (← IO.currentDir).toString.toList)
  let targets := match Cli.Invocation.ofWords words with
    | .run arguments => arguments.targets
    | _ => []
  let tree ← targets.foldlM loadTarget { root := .directory [], current }
  match Cli.execute (← (← IO.getStdout).isTty) words tree with
  | some outcome =>
    writeChanges tree outcome.tree
    IO.print (String.ofList outcome.stdout)
    IO.eprint (String.ofList outcome.stderr)
    return UInt32.ofNat outcome.exit
  | none =>
    IO.eprintln "error: the arguments make no sense"
    return 2

end RouteComments.Main

/-- Runs the command line. -/
def main (words : List String) : IO UInt32 :=
  RouteComments.Main.run (words.map String.toList)
