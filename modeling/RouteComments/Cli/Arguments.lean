import RouteComments.Path
import RouteComments.Report.Format

set_option autoImplicit false

namespace RouteComments.Cli

open Text

/-- What the command line asks for. -/
structure Arguments where
  paths : List Path
  baseUrl : Option Text
  check : Bool
  list : Bool
  format : Option Format
  quiet : Bool
  deriving DecidableEq, Repr

def Arguments.empty : Arguments :=
  { paths := [], baseUrl := none, check := false, list := false, format := none, quiet := false }

/-- What to do with a command line. -/
inductive Invocation where
  | run (arguments : Arguments)
  | version
  | help
  /-- The arguments make no sense. -/
  | usage
  deriving DecidableEq, Repr

/-- The options. -/
inductive Flag where
  | baseUrl
  | check
  | list
  | format
  | quiet
  | version
  | help
  deriving DecidableEq, Repr

def Flag.ofLong? (name : Text) : Option Flag :=
  [("base-url".toList, Flag.baseUrl), ("check".toList, .check), ("list".toList, .list),
    ("format".toList, .format), ("quiet".toList, .quiet), ("version".toList, .version),
    ("help".toList, .help)].lookup name

def Flag.ofShort? (letter : Char) : Option Flag :=
  [('f', Flag.format), ('q', .quiet), ('V', .version), ('h', .help)].lookup letter

def Flag.takesValue : Flag → Bool
  | .baseUrl | .format => true
  | _ => false

def formatNamed? (name : Text) : Option Format :=
  [("pretty".toList, Format.pretty), ("json".toList, .json), ("compact".toList, .compact)].lookup name

namespace Arguments

/-- Sets an option that takes no value; `none` if it was set before. -/
def set? (arguments : Arguments) : Flag → Option Arguments
  | .check => if arguments.check then none else some { arguments with check := true }
  | .list => if arguments.list then none else some { arguments with list := true }
  | .quiet => if arguments.quiet then none else some { arguments with quiet := true }
  | _ => none

/-- Gives an option its value; `none` if it has one or the value does not fit. -/
def give? (arguments : Arguments) (flag : Flag) (value : Text) : Option Arguments :=
  match flag with
  | .baseUrl =>
    if arguments.baseUrl.isSome then none else some { arguments with baseUrl := some value }
  | .format =>
    if arguments.format.isSome then none
    else (formatNamed? value).map fun format => { arguments with format := some format }
  | _ => none

/-- Adds a path, which is not empty. -/
def addPath? (arguments : Arguments) (path : Text) : Option Arguments :=
  if path.isEmpty then none else some { arguments with paths := arguments.paths ++ [.ofText path] }

def addPaths? : Arguments → List Text → Option Arguments
  | arguments, [] => some arguments
  | arguments, path :: rest => (arguments.addPath? path).bind (addPaths? · rest)

end Arguments

/-- Where the reading of a group of letters leads. -/
inductive Group where
  | done (arguments : Arguments)
  /-- The last letter waits for a value. -/
  | pending (arguments : Arguments) (flag : Flag)
  | version
  | help
  | usage
  deriving DecidableEq, Repr

/-- The value written directly behind a letter, with or without an equals sign. -/
def attachedValue : Text → Text
  | '=' :: value => value
  | value => value

/-- Reads the letters behind a single dash. A letter that takes a value takes the rest of the group. -/
def readLetters (arguments : Arguments) : Text → Group
  | [] => .done arguments
  | letter :: rest =>
    match Flag.ofShort? letter with
    | none => .usage
    | some .version => .version
    | some .help => .help
    | some flag =>
      if flag.takesValue then
        if rest.isEmpty then .pending arguments flag
        else
          match arguments.give? flag (attachedValue rest) with
          | some next => .done next
          | none => .usage
      else
        match arguments.set? flag with
        | some next => readLetters next rest
        | none => .usage

/-- Reads an option with a long name behind its two dashes. -/
def readLong (arguments : Arguments) (written : Text) : Group :=
  let name := written.takeWhile (· != '=')
  match Flag.ofLong? name, written.dropWhile (· != '=') with
  | none, _ => .usage
  | some flag, _ :: value =>
    if flag.takesValue then
      match arguments.give? flag value with
      | some next => .done next
      | none => .usage
    else .usage
  | some .version, [] => .version
  | some .help, [] => .help
  | some flag, [] =>
    if flag.takesValue then .pending arguments flag
    else
      match arguments.set? flag with
      | some next => .done next
      | none => .usage

def looksLikeOption : Text → Bool
  | '-' :: _ :: _ => true
  | _ => false

/-- Settles what arguments ask for: listing and checking exclude each other. -/
def settle (arguments : Arguments) : Invocation :=
  if arguments.check && arguments.list then .usage else .run arguments

/-- Reads the words of a command line; `waiting` is the option whose value comes next. -/
def readWords (arguments : Arguments) (waiting : Option Flag) : List Text → Invocation
  | [] => if waiting.isSome then .usage else settle arguments
  | word :: rest =>
    match waiting with
    | some flag =>
      if looksLikeOption word then .usage
      else
        match arguments.give? flag word with
        | some next => readWords next none rest
        | none => .usage
    | none =>
      match word with
      | ['-', '-'] =>
        match arguments.addPaths? rest with
        | some next => settle next
        | none => .usage
      | '-' :: '-' :: written => follow (readLong arguments written) rest
      | '-' :: c :: letters => follow (readLetters arguments (c :: letters)) rest
      | _ =>
        match arguments.addPath? word with
        | some next => readWords next none rest
        | none => .usage
where
  /-- Goes on behind a word with options. -/
  follow (group : Group) (rest : List Text) : Invocation :=
    match group with
    | .done next => readWords next none rest
    | .pending next flag => readWords next (some flag) rest
    | .version => .version
    | .help => .help
    | .usage => .usage

/-- Reads a command line. -/
def Invocation.ofWords (words : List Text) : Invocation :=
  readWords Arguments.empty none words

end RouteComments.Cli
