import RouteComments.Workspace.Host

set_option autoImplicit false

namespace RouteComments.Host

variable {σ : Type}

/-- How far the regeneration of a document is. -/
inductive Progress where
  | waiting
  /-- The document was read and its edits are still to be applied. -/
  | planned (text : Text)
  | finished (report : Option Report)
  deriving DecidableEq

/-- The report of a finished document. -/
def Progress.report? : Progress → Option Report
  | .finished report => report
  | _ => none

/-- The number of steps that a document can still need. -/
def Progress.left : Progress → Nat
  | .waiting => 2
  | .planned _ => 1
  | .finished _ => 0

/-- Reads a document and plans it. -/
def look (host : Host σ) (annotator : Annotator) (state : σ) (path : Path) : Progress :=
  match host.read state path with
  | .error failure => .finished (some { path, blocks := [], changed := false, error := some failure.message })
  | .ok text =>
    if Mapping.isController text then
      let doc : Document := { path, text }
      if annotator.annotate doc = text then
        .finished (some { path, blocks := annotator.plan doc, changed := false, error := none })
      else .planned text
    else .finished none

/-- Applies the edits of a document that was read as some text. -/
def write (host : Host σ) (annotator : Annotator) (state : σ) (path : Path) (text : Text) : Option Report × σ :=
  let doc : Document := { path, text }
  let plan := annotator.plan doc
  match host.edit state doc plan.orderedOperations with
  | .ok next => (some { path, blocks := plan, changed := true, error := none }, next)
  | .error failure => (some { path, blocks := plan, changed := false, error := some failure.message }, state)

/-- Takes the next step of a document. -/
def advance (host : Host σ) (annotator : Annotator) (state : σ) (path : Path) : Progress → Progress × σ
  | .waiting => (host.look annotator state path, state)
  | .planned text =>
    let (report, next) := host.write annotator state path text
    (.finished report, next)
  | .finished report => (.finished report, state)

/-- Documents that are regenerated side by side on one host. -/
structure Work (σ : Type) where
  state : σ
  documents : List (Path × Progress)

namespace Work

/-- No document is read yet. -/
def start (state : σ) (files : List Path) : Work σ :=
  { state, documents := files.map fun path => (path, .waiting) }

/-- The reports of the finished documents, in the order of discovery. -/
def reports (work : Work σ) : List Report :=
  work.documents.filterMap (·.2.report?)

/-- Takes the next step of the document with an index. -/
def step (host : Host σ) (annotator : Annotator) (work : Work σ) (index : Nat) : Work σ :=
  match work.documents[index]? with
  | some (path, progress) =>
    let (later, next) := host.advance annotator work.state path progress
    { state := next, documents := work.documents.set index (path, later) }
  | none => work

/-- Takes the steps of a schedule, which says whose turn it is. -/
def run (host : Host σ) (annotator : Annotator) (schedule : List Nat) (work : Work σ) : Work σ :=
  schedule.foldl (step host annotator) work

end Work

/-- A schedule gives each document the turns that it needs. -/
def Completes (schedule : List Nat) (count : Nat) : Prop :=
  ∀ index < count, 2 ≤ schedule.count index

instance (schedule : List Nat) (count : Nat) : Decidable (Completes schedule count) :=
  inferInstanceAs (Decidable (∀ index < count, 2 ≤ schedule.count index))

/-- Regenerates all documents in the order of a schedule. -/
def regenerateBy (host : Host σ) (schedule : List Nat) (state : σ) : Except Failure (Summary × σ) :=
  match host.findFiles state with
  | .error failure => .error failure
  | .ok files =>
    let baseUrl := host.baseUrl state
    let work := Work.run host (Annotator.ofBaseUrl baseUrl) schedule (Work.start state files)
    .ok ({ baseUrl, dryRun := !host.persists state, documents := work.reports }, work.state)

/-- The schedule that regenerates one document after the other. -/
def inOrder (count : Nat) : List Nat :=
  (List.range count).flatMap fun index => [index, index]

end RouteComments.Host
