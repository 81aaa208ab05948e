import RouteComments.Cli.Run
import RouteComments.Proofs.FileWrites
import RouteComments.Proofs.PlanOperations

set_option autoImplicit false

namespace RouteComments

open Text

theorem Operation.areOrdered_of_pairwise {operations : List Operation}
    (sorted : operations.Pairwise fun earlier later => mayPrecede earlier later = true) :
    areOrdered operations = true := by
  match operations, sorted with
  | [], _ => rfl
  | [_], _ => rfl
  | first :: second :: rest, sorted =>
    obtain ⟨before, onward⟩ := List.pairwise_cons.mp sorted
    rw [areOrdered, before second List.mem_cons_self, areOrdered_of_pairwise onward]
    rfl

/-- Hosts accept the operations of a plan. -/
theorem Plan.areOrdered_orderedOperations (plan : Plan) : Operation.areOrdered plan.orderedOperations = true :=
  Operation.areOrdered_of_pairwise (Operation.order_sorted plan.operations)

namespace Host

variable {σ : Type}

/-- Remembering what is written changes nothing else. -/
theorem process_logged (host : Host σ) (annotator : Annotator) (state : σ) (log : Log) (path : Path) :
    host.logged.process annotator (state, log) path =
      ((host.process annotator state path).1, (host.process annotator state path).2,
        log ++ host.writesFor annotator state path) := by
  simp only [writesFor, process, logged]
  cases host.read state path with
  | error failure => simp
  | ok text =>
    by_cases controller : Mapping.isController text = true
    · by_cases same : (annotator.plan { path, text }).apply { path, text } = text
      · simp [controller, same]
      · cases edit : host.edit state { path, text } (annotator.plan { path, text }).orderedOperations with
        | error failure => simp [controller, same, edit]
        | ok next =>
          by_cases persists : host.persists state = true
          · simp [controller, same, edit, persists]
          · simp [controller, same, edit, persists]
    · simp [controller]

theorem processAll_logged (host : Host σ) (annotator : Annotator) (files : List Path) (state : σ) (log : Log) :
    host.logged.processAll annotator (state, log) files =
      ((host.processAll annotator state files).1, (host.processAll annotator state files).2,
        log ++ host.writesForAll annotator state files) := by
  induction files generalizing state log with
  | nil => simp [processAll, writesForAll]
  | cons path rest ih => simp [processAll, writesForAll, process_logged, ih]

theorem writes_of_findFiles {host : Host σ} {state : σ} {files : List Path}
    (found : host.findFiles state = .ok files) :
    host.writes state = host.writesForAll (Annotator.ofBaseUrl (host.baseUrl state)) state files := by
  have baseUrl : host.logged.baseUrl (state, []) = host.baseUrl state := rfl
  have foundToo : host.logged.findFiles (state, []) = .ok files := found
  simp only [writes, regenerate, foundToo, baseUrl, processAll_logged, List.nil_append]

end Host

namespace FileTree

/-- The text that was last written at a place, if one was. -/
def lastWrite? (tree : FileTree) (log : Host.Log) (place : List Text) : Option Text :=
  ((log.filter fun write => decide (tree.locate write.1 = .ok place)).getLast?).map Prod.snd

/-- A tree is another one after some texts were written: each file holds the text last written to it, or what it
held. -/
structure Holds (tree : FileTree) (log : Host.Log) (next : FileTree) : Prop where
  shape : SameShape next tree
  content : ∀ place, next.content? place = ((tree.lastWrite? log place).map Content.text).or (tree.content? place)

theorem lastWrite?_append (tree : FileTree) (first second : Host.Log) (place : List Text) :
    tree.lastWrite? (first ++ second) place = (tree.lastWrite? second place).or (tree.lastWrite? first place) := by
  rw [lastWrite?, List.filter_append, List.getLast?_append, Option.map_or]
  rfl

theorem SameShape.lastWrite? {first second : FileTree} (shape : SameShape first second) (log : Host.Log)
    (place : List Text) : first.lastWrite? log place = second.lastWrite? log place := by
  simp only [FileTree.lastWrite?, shape.locate]

theorem Holds.refl (tree : FileTree) : Holds tree [] tree :=
  ⟨.refl tree, fun _ => rfl⟩

theorem Holds.trans {tree middle next : FileTree} {first second : Host.Log} (one : Holds tree first middle)
    (two : Holds middle second next) : Holds tree (first ++ second) next where
  shape := two.shape.trans one.shape
  content := by
    intro place
    rw [two.content, one.content, one.shape.lastWrite?, lastWrite?_append, Option.map_or, Option.or_assoc]

theorem Rewrites.holds {tree next : FileTree} {path : Path} {place : List Text} {text : Text}
    (located : tree.locate path = .ok place) (rewrites : Rewrites tree next place text) :
    Holds tree [(path, text)] next where
  shape := rewrites.shape
  content := by
    intro other
    by_cases here : other = place
    · subst here
      simp [lastWrite?, located, rewrites.inside]
    · have elsewhere : ¬ place = other := fun same => here same.symm
      simp [lastWrite?, located, elsewhere, rewrites.outside other here]

end FileTree

namespace Disk

open FileTree

/-- What the regeneration of a file does: it leaves the tree alone, because there is nothing to change or because no
edits are kept, or it writes another text to the one file. -/
inductive Outcome (disk : Disk) (tree : FileTree) (path : Path) : Option Report → FileTree → Host.Log → Prop where
  | idle (report : Option Report) (same : ∀ found, report = some found → found.changed = false) :
    Outcome disk tree path report tree []
  | checked (report : Report) (changed : report.changed = true) (dry : disk.writes = false) :
    Outcome disk tree path (some report) tree []
  | written (report : Report) (changed : report.changed = true) (writes : disk.writes = true) (place : List Text)
    (next : FileTree) (text : Text) (located : tree.locate path = .ok place)
    (differs : tree.content? place ≠ some (.text text)) (rewrites : Rewrites tree next place text) :
    Outcome disk tree path (some report) next [(path, text)]

theorem edit_of_dry {disk : Disk} (dry : disk.writes = false) (annotator : Annotator) (tree : FileTree)
    (doc : Document) : disk.host.edit tree doc (annotator.plan doc).orderedOperations = .ok tree := by
  simp [host, editDocument, Plan.areOrdered_orderedOperations, dry]

/-- The edits of a document that was read are written. -/
theorem edit_of_read {disk : Disk} (writes : disk.writes = true) (annotator : Annotator) {tree : FileTree}
    {path : Path} {text : Text} (read : tree.read path = .ok text) :
    ∃ place next, tree.locate path = .ok place ∧
      disk.host.edit tree { path, text } (annotator.plan { path, text }).orderedOperations = .ok next ∧
      Rewrites tree next place (annotator.annotate { path, text }) := by
  obtain ⟨place, next, located, written, rewrites⟩ :=
    write_of_read read (annotator.annotate { path, text })
  refine ⟨place, next, located, ?_, rewrites⟩
  simp only [host, editDocument, Plan.areOrdered_orderedOperations, writes, if_true]
  rw [show Document.edited { path, text } (annotator.plan { path, text }).orderedOperations =
    annotator.annotate { path, text } from rfl, written]

theorem process_outcome (disk : Disk) (annotator : Annotator) (tree : FileTree) (path : Path) :
    Outcome disk tree path (disk.host.process annotator tree path).1 (disk.host.process annotator tree path).2
      (disk.host.writesFor annotator tree path) := by
  simp only [Host.writesFor, Host.process, Host.logged]
  cases read : disk.host.read tree path with
  | error failure => exact .idle _ (by simp)
  | ok text =>
    by_cases controller : Mapping.isController text = true
    · by_cases same : (annotator.plan { path, text }).apply { path, text } = text
      · simp only [controller, same, if_true]
        exact .idle _ (by simp)
      · cases writes : disk.writes with
        | false =>
          simp only [controller, same, if_true, if_false, edit_of_dry writes]
          have persists : disk.host.persists tree = false := writes
          rw [persists]
          exact .checked _ rfl writes
        | true =>
          have readToo : tree.read path = .ok text := by
            simp only [host, readDocument] at read
            split at read
            · rename_i found here
              cases read
              exact here
            · cases read
          obtain ⟨place, next, located, edit, rewrites⟩ := edit_of_read writes annotator readToo
          have differs : tree.content? place ≠ some (.text (annotator.annotate { path, text })) := by
            intro kept
            have annotated : tree.read path = .ok (annotator.annotate { path, text }) :=
              read_eq_ok_iff.mpr ⟨place, located, kept⟩
            exact same (Except.ok.inj (annotated.symm.trans readToo))
          simp only [controller, same, if_true, if_false, edit]
          have persists : disk.host.persists tree = true := writes
          rw [persists]
          exact .written _ rfl writes place next _ located differs rewrites
    · simp only [controller]
      exact .idle _ (by simp)

section Outcomes

variable {disk : Disk} {tree next : FileTree} {path : Path} {report : Option Report} {log : Host.Log}

theorem Outcome.holds (outcome : Outcome disk tree path report next log) : Holds tree log next := by
  cases outcome with
  | idle report same => exact .refl tree
  | checked report changed dry => exact .refl tree
  | written report changed writes place next text located differs rewrites => exact rewrites.holds located

theorem Outcome.content_elsewhere (outcome : Outcome disk tree path report next log) {place : List Text}
    (elsewhere : tree.locate path ≠ .ok place) : next.content? place = tree.content? place := by
  cases outcome with
  | idle report same => rfl
  | checked report changed dry => rfl
  | written report changed writes written next text located differs rewrites =>
    exact rewrites.outside place fun same => elsewhere (same ▸ located)

theorem Outcome.tree_of_dry (outcome : Outcome disk tree path report next log) (dry : disk.writes = false) :
    next = tree := by
  cases outcome with
  | idle report same => rfl
  | checked report changed dry => rfl
  | written report changed writes place next text located differs rewrites => simp [dry] at writes

theorem Outcome.tree_of_log (outcome : Outcome disk tree path report next log) (nothing : log = []) :
    next = tree := by
  cases outcome with
  | idle report same => rfl
  | checked report changed dry => rfl
  | written report changed writes place next text located differs rewrites => cases nothing

/-- Where edits are kept, a document is written exactly if it is reported as changed. -/
theorem Outcome.log_eq_nil_iff (outcome : Outcome disk tree path report next log) (writes : disk.writes = true) :
    log = [] ↔ ∀ found, report = some found → found.changed = false := by
  cases outcome with
  | idle report same => exact ⟨fun _ => same, fun _ => rfl⟩
  | checked report changed dry => simp [dry] at writes
  | written report changed kept place next text located differs rewrites => simp [changed]

end Outcomes

theorem holds_processAll (disk : Disk) (annotator : Annotator) (files : List Path) (tree : FileTree) :
    Holds tree (disk.host.writesForAll annotator tree files) (disk.host.processAll annotator tree files).2 := by
  induction files generalizing tree with
  | nil => exact .refl tree
  | cons path rest ih =>
    have first := (process_outcome disk annotator tree path).holds
    exact first.trans (ih _)

/-- A regeneration leaves the tree that its writes make. -/
theorem holds_regenerate {disk : Disk} {tree next : FileTree} {summary : Summary}
    (regenerated : disk.host.regenerate tree = .ok (summary, next)) : Holds tree (disk.host.writes tree) next := by
  unfold Host.regenerate at regenerated
  split at regenerated
  · cases regenerated
  · rename_i files found
    cases regenerated
    rw [Host.writes_of_findFiles found]
    exact holds_processAll disk _ files tree

end Disk

namespace Cli

open FileTree

theorem runPath_eq_ok {arguments : Arguments} {tree next : FileTree} {path : Path} {summary : Summary}
    (ran : runPath arguments tree path = .ok (summary, next)) :
    ∃ disk, hostFor tree arguments path = .ok disk ∧ disk.host.regenerate tree = .ok (summary, next) := by
  unfold runPath at ran
  split at ran
  · cases ran
  · rename_i disk found
    split at ran
    · rename_i result regenerated
      cases ran
      exact ⟨disk, found, regenerated⟩
    · cases ran

theorem holds_runPath {arguments : Arguments} {tree next : FileTree} {path : Path} {summary : Summary}
    (ran : runPath arguments tree path = .ok (summary, next)) : Holds tree (pathWrites arguments tree path) next := by
  obtain ⟨disk, found, regenerated⟩ := runPath_eq_ok ran
  rw [pathWrites, found]
  exact Disk.holds_regenerate regenerated

/-- A run leaves the tree that its writes make, whether it stops or not. -/
theorem holds_runPaths (arguments : Arguments) (paths : List Path) (tree : FileTree) :
    Holds tree (writes arguments tree paths) (runPaths arguments tree paths).2 := by
  induction paths generalizing tree with
  | nil => exact .refl tree
  | cons path rest ih =>
    rw [writes, runPaths]
    cases ran : runPath arguments tree path with
    | error stop => exact .refl tree
    | ok result =>
      obtain ⟨summary, next⟩ := result
      exact (holds_runPath ran).trans (ih next)

/-- A run stops at the first path that cannot be regenerated, with the tree and the writes of the paths before it. -/
theorem runPaths_stop {arguments : Arguments} {tree last : FileTree} {paths : List Path} {stop : Stop}
    (stopped : runPaths arguments tree paths = (.error stop, last)) :
    ∃ finished path rest summaries, paths = finished ++ path :: rest ∧
      runPaths arguments tree finished = (.ok summaries, last) ∧ runPath arguments last path = .error stop ∧
      writes arguments tree paths = writes arguments tree finished := by
  induction paths generalizing tree with
  | nil => cases stopped
  | cons path rest ih =>
    rw [runPaths] at stopped
    cases ran : runPath arguments tree path with
    | error reason =>
      simp only [ran, Prod.mk.injEq, Except.error.injEq] at stopped
      obtain ⟨rfl, rfl⟩ := stopped
      exact ⟨[], path, rest, [], rfl, rfl, ran, by simp only [writes, ran]⟩
    | ok result =>
      obtain ⟨summary, next⟩ := result
      simp only [ran, Prod.mk.injEq] at stopped
      obtain ⟨failed, rfl⟩ := stopped
      have later : runPaths arguments next rest = (.error stop, (runPaths arguments next rest).2) := by
        cases result : (runPaths arguments next rest).1 with
        | error other =>
          simp only [result, Except.map, Except.error.injEq] at failed
          rw [← failed, ← result]
        | ok summaries => simp [result, Except.map] at failed
      obtain ⟨finished, bad, others, summaries, rfl, done, refused, same⟩ := ih later
      refine ⟨path :: finished, bad, others, summary :: summaries, rfl, ?_, refused, ?_⟩
      · simp only [runPaths, ran, done, Except.map]
      · simp only [writes, ran, same]

theorem verdict_ne_two (color : Bool) (arguments : Arguments) (summaries : List Summary) :
    (verdict color arguments summaries).1 ≠ 2 := by
  unfold verdict
  dsimp only
  split
  · simp
  · split
    · simp
    · simp

/-- The runs that end with the exit code for errors are those that stopped at a path. -/
theorem run_stopped {color : Bool} {arguments : Arguments} {tree : FileTree}
    (failed : (run color arguments tree).exit = 2) :
    (run color arguments tree).stdout = [] ∧
      ∃ stop, runPaths arguments tree arguments.targets = (.error stop, (run color arguments tree).tree) := by
  unfold run at failed ⊢
  split at failed
  · rename_i stop last stopped
    exact ⟨rfl, stop, stopped⟩
  · rename_i summaries last finished
    exact absurd failed (verdict_ne_two color arguments summaries)

/-- A run that fails prints no report, stops at its first bad path and leaves what the paths before it made of the tree.
All files are as before exactly if each one that was written got its own text back at last; so they are if none was. -/
theorem failed_run_keeps_files_iff {color : Bool} {words : List Text} {tree : FileTree} {outcome : Outcome}
    (ran : execute color words tree = some outcome) (failed : outcome.exit = 2) :
    ∃ arguments finished path rest summaries stop, Invocation.ofWords words = .run arguments ∧
      arguments.targets = finished ++ path :: rest ∧
      runPaths arguments tree finished = (.ok summaries, outcome.tree) ∧
      runPath arguments outcome.tree path = .error stop ∧ outcome.stdout = [] ∧
      ((∀ place, outcome.tree.content? place = tree.content? place) ↔
        ∀ place text, tree.lastWrite? (writes arguments tree finished) place = some text →
          tree.content? place = some (.text text)) := by
  unfold execute at ran
  split at ran
  · rename_i arguments meant
    cases ran
    obtain ⟨silent, stop, stopped⟩ := run_stopped failed
    obtain ⟨finished, path, rest, summaries, targets, done, refused, -⟩ := runPaths_stop stopped
    refine ⟨arguments, finished, path, rest, summaries, stop, meant, targets, done, refused, silent, ?_⟩
    have holds := holds_runPaths arguments finished tree
    rw [done] at holds
    constructor
    · intro kept place text written
      have content := holds.content place
      rw [kept, written] at content
      exact content
    · intro restored place
      rw [holds.content]
      cases written : tree.lastWrite? (writes arguments tree finished) place with
      | none => rfl
      | some text => exact (restored place text written).symm
  · cases ran
    cases failed
  · cases ran
    cases failed
  · cases ran

section Examples

def fileThenMissing : Arguments :=
  { Arguments.empty with paths := [.ofText "A.java".toList, .ofText "B".toList] }

theorem ofWords_fileThenMissing :
    Invocation.ofWords ["A.java".toList, "B".toList] = .run fileThenMissing := by cbv

def loneFile (text : String) : FileTree where
  root := .directory [("A.java".toList, .file (.text text.toList))]
  current := []

def emptyController : FileTree :=
  loneFile "@Controller class A \x7b\x7d\n"

def bareController : FileTree :=
  loneFile "@Controller class A \x7b\n    @GetMapping(\"/x\")\n    public void x() \x7b\x7d\n\x7d\n"

theorem emptyController_failed_run : ∃ outcome,
    execute false ["A.java".toList, "B".toList] emptyController = some outcome ∧ outcome.exit = 2 ∧
      ∀ place, outcome.tree.content? place = emptyController.content? place := by
  have ran : execute false ["A.java".toList, "B".toList] emptyController =
      some (run false fileThenMissing emptyController) := by rw [execute, ofWords_fileThenMissing]
  have failed : (run false fileThenMissing emptyController).exit = 2 := by decide +kernel
  obtain ⟨arguments, finished, path, rest, summaries, stop, meant, targets, done, -, -, exact⟩ :=
    failed_run_keeps_files_iff ran failed
  refine ⟨_, ran, failed, exact.mpr ?_⟩
  cases ofWords_fileThenMissing.symm.trans meant
  -- the path that stops the run is one of two, and neither prefix writes anything
  have nothing : writes fileThenMissing emptyController finished = [] := by
    cases finished with
    | nil => rfl
    | cons first others =>
      obtain ⟨rfl, after⟩ := List.cons.inj targets
      cases others with
      | nil => decide +kernel
      | cons second others => simp at after
  intro place text written
  rw [nothing] at written
  cases written

/-- The file before a missing path is rewritten, and nothing is printed about it. -/
theorem bareController_failed_run : ∃ outcome,
    execute false ["A.java".toList, "B".toList] bareController = some outcome ∧ outcome.exit = 2 ∧
      outcome.stdout = [] ∧ outcome.tree.content? ["A.java".toList] ≠ bareController.content? ["A.java".toList] := by
  refine ⟨run false fileThenMissing bareController, by rw [execute, ofWords_fileThenMissing], ?_⟩
  decide +kernel

end Examples

end Cli

end RouteComments
