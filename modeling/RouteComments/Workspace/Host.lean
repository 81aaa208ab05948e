import RouteComments.LocalServer
import RouteComments.Report.Summary
import RouteComments.Workspace.Failure

set_option autoImplicit false

namespace RouteComments

/-- What regeneration needs from its environment, with states of type `σ`. -/
structure Host (σ : Type) where
  /-- The candidate files. -/
  findFiles : σ → Except Failure (List Path)
  /-- The text of a document. -/
  read : σ → Path → Except Failure Text
  /-- Applies ordered operations that are numbered against the document. -/
  edit : σ → Document → List Operation → Except Failure σ
  /-- A setting by key. -/
  setting : σ → Text → Option Text
  /-- The text of a file of the project. -/
  projectFile : σ → Text → Option Text
  /-- Whether edits are kept. -/
  persists : σ → Bool

namespace Host

variable {σ : Type}

/-- The base URL: the setting, else the local server at the port of the project. -/
def baseUrl (host : Host σ) (state : σ) : Text :=
  match host.setting state "baseUrl".toList with
  | some url => url
  | none => LocalServer.baseUrl (LocalServer.port (host.projectFile state))

/-- Regenerates one document. A document that is no controller gets no report. -/
def process (host : Host σ) (annotator : Annotator) (state : σ) (path : Path) : Option Report × σ :=
  match host.read state path with
  | .error failure =>
    (some { path, blocks := [], changed := false, error := some failure.message }, state)
  | .ok text =>
    if Mapping.isController text then
      let doc : Document := { path, text }
      let plan := annotator.plan doc
      if plan.apply doc = text then (some { path, blocks := plan, changed := false, error := none }, state)
      else
        match host.edit state doc plan.orderedOperations with
        | .ok next => (some { path, blocks := plan, changed := true, error := none }, next)
        | .error failure =>
          (some { path, blocks := plan, changed := false, error := some failure.message }, state)
    else (none, state)

/-- Regenerates documents one after another. -/
def processAll (host : Host σ) (annotator : Annotator) : σ → List Path → List Report × σ
  | state, [] => ([], state)
  | state, path :: rest =>
    let (report, next) := host.process annotator state path
    let (reports, last) := processAll host annotator next rest
    (report.toList ++ reports, last)

/-- Regenerates all documents. Only a failure to find them is a failure of the whole. -/
def regenerate (host : Host σ) (state : σ) : Except Failure (Summary × σ) :=
  match host.findFiles state with
  | .error failure => .error failure
  | .ok files =>
    let baseUrl := host.baseUrl state
    let (documents, last) := host.processAll (Annotator.ofBaseUrl baseUrl) state files
    .ok ({ baseUrl, dryRun := !host.persists state, documents }, last)

/-- Texts that were written, with their paths, first to last. -/
abbrev Log := List (Path × Text)

/-- A host that remembers the texts that it keeps. -/
def logged (host : Host σ) : Host (σ × Log) where
  findFiles state := host.findFiles state.1
  read state := host.read state.1
  edit state doc operations :=
    match host.edit state.1 doc operations with
    | .error failure => .error failure
    | .ok next =>
      .ok (next, if host.persists state.1 then state.2 ++ [(doc.path, doc.edited operations)] else state.2)
  setting state := host.setting state.1
  projectFile state := host.projectFile state.1
  persists state := host.persists state.1

/-- What is written for a document. -/
def writesFor (host : Host σ) (annotator : Annotator) (state : σ) (path : Path) : Log :=
  (host.logged.process annotator (state, []) path).2.2

/-- What is written for documents one after another. -/
def writesForAll (host : Host σ) (annotator : Annotator) : σ → List Path → Log
  | _, [] => []
  | state, path :: rest =>
    host.writesFor annotator state path ++ writesForAll host annotator (host.process annotator state path).2 rest

/-- What a regeneration writes. -/
def writes (host : Host σ) (state : σ) : Log :=
  match host.logged.regenerate (state, []) with
  | .ok (_, _, log) => log
  | .error _ => []

end Host

end RouteComments
