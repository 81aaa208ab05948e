import RouteComments.Cli.Arguments
import RouteComments.Workspace.Disk

set_option autoImplicit false

namespace RouteComments.Cli

open Text

structure Outcome where
  exit : Nat
  stdout : Text
  stderr : Text
  tree : FileTree

inductive Stop where
  | config (path : Path) (error : ConfigError)
  | scan (path : Path) (failure : Failure)
  deriving DecidableEq, Repr

/-- The wordings of why a run stops, outermost first. -/
def Stop.chain : Stop → List Text
  | .config path error =>
    let causes := match error with
      | .unreadable _ fault => [fault.message]
      | .malformed _ => []
    ("loading configuration for ".toList ++ path.shown) :: error.message :: causes
  | .scan path failure => ("scanning ".toList ++ path.shown) :: failure.chain

/-- How the line about a stop ends. The line about a malformed file is left open for the place in the file. -/
def Stop.lineEnd : Stop → Text
  | .config _ (.malformed _) => []
  | _ => ['\n']

/-- The host for a path: the configuration found from there, with the base URL of the command line. -/
def hostFor (tree : FileTree) (arguments : Arguments) (path : Path) : Except Stop Disk :=
  match tree.discoverConfig path with
  | .error error => .error (.config path error)
  | .ok config =>
    let disk := Disk.ofTarget tree path (config.withBaseUrl arguments.baseUrl)
    .ok (if arguments.check || arguments.list then disk.dryRun else disk)

def runPath (arguments : Arguments) (tree : FileTree) (path : Path) : Except Stop (Summary × FileTree) :=
  match hostFor tree arguments path with
  | .error stop => .error stop
  | .ok disk =>
    match disk.host.regenerate tree with
    | .ok result => .ok result
    | .error failure => .error (.scan path failure)

/-- Regenerates paths one after another up to the first that stops the run; gives the tree in either case. -/
def runPaths (arguments : Arguments) (tree : FileTree) : List Path → Except Stop (List Summary) × FileTree
  | [] => (.ok [], tree)
  | path :: rest =>
    match runPath arguments tree path with
    | .error stop => (.error stop, tree)
    | .ok (summary, next) =>
      let (result, last) := runPaths arguments next rest
      (result.map (summary :: ·), last)

/-- What is written for a path. -/
def pathWrites (arguments : Arguments) (tree : FileTree) (path : Path) : Host.Log :=
  match hostFor tree arguments path with
  | .ok disk => disk.host.writes tree
  | .error _ => []

/-- What is written for paths one after another, up to the first that stops the run. -/
def writes (arguments : Arguments) : FileTree → List Path → Host.Log
  | _, [] => []
  | tree, path :: rest =>
    match runPath arguments tree path with
    | .error _ => []
    | .ok (_, next) => pathWrites arguments tree path ++ writes arguments next rest

/-- The paths of a command line, by default the current directory. -/
def Arguments.targets (arguments : Arguments) : List Path :=
  if arguments.paths.isEmpty then [.ofText ['.']] else arguments.paths

/-- The reports of a summary, without documents that have nothing to show. -/
def reportText (color : Bool) (format : Format) (summary : Summary) : Text :=
  (summary.documents.filter fun report => !(report.blocks.isEmpty && report.error.isNone)).flatMap
    (·.format color format)

def summaryText (color : Bool) (arguments : Arguments) (summary : Summary) : Text :=
  let format := arguments.format.getD .pretty
  if format = .json then Json.pretty summary.toJson ++ ['\n']
  else
    let reports := if arguments.quiet then [] else reportText color format summary ++ ['\n']
    reports ++ summary.line color ++ ['\n']

/-- The exit code of a finished run and what it adds about stale documents. -/
def verdict (color : Bool) (arguments : Arguments) (summaries : List Summary) : Nat × Text :=
  let failures := (summaries.flatMap (·.failures)).length
  let pending := (summaries.flatMap (·.changes)).length
  if 0 < failures then (1, [])
  else if arguments.check && 0 < pending then
    (1, Style.paint color (Style.strong .red) "Check failed:".toList ++ ' ' :: Text.ofNat pending ++
      " document(s) have stale endpoint comments\n".toList)
  else (0, [])

/-- Runs a command line that was read. -/
def run (color : Bool) (arguments : Arguments) (tree : FileTree) : Outcome :=
  match runPaths arguments tree arguments.targets with
  | (.error stop, last) =>
    { exit := 2, stdout := []
      stderr := Style.paint color (Style.strong .red) "Error".toList ++ ": ".toList ++
        joinWith ": ".toList stop.chain ++ stop.lineEnd
      tree := last }
  | (.ok summaries, last) =>
    let (exit, stderr) := verdict color arguments summaries
    { exit, stdout := summaries.flatMap (summaryText color arguments), stderr, tree := last }

/-- The name and version of the program. -/
def versionLine : Text :=
  "endpoint-comments 0.1.0\n".toList

/-- The first line of the help. The rest is the text of the library that reads the arguments, and is left out. -/
def helpLine : Text :=
  "Write `// GET https://...` comments above Spring route annotations\n".toList

/-- Runs the words of a command line over a tree; `none` if they make no sense. -/
def execute (color : Bool) (words : List Text) (tree : FileTree) : Option Outcome :=
  match Invocation.ofWords words with
  | .run arguments => some (run color arguments tree)
  | .version => some { exit := 0, stdout := versionLine, stderr := [], tree }
  | .help => some { exit := 0, stdout := helpLine, stderr := [], tree }
  | .usage => none

end RouteComments.Cli
