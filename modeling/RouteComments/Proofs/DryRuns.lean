import RouteComments.Proofs.DiscoveredFiles
import RouteComments.Proofs.WrittenFiles

set_option autoImplicit false

namespace RouteComments

open Text

namespace Disk

open FileTree

section Documents

variable {disk other : Disk} {tree now : FileTree} {path : Path}

theorem edit_eq_ok (disk : Disk) (annotator : Annotator) {text : Text} (read : tree.read path = .ok text) :
    ∃ next, disk.host.edit tree { path, text } (annotator.plan { path, text }).orderedOperations = .ok next := by
  cases writes : disk.writes with
  | false => exact ⟨tree, edit_of_dry writes annotator tree _⟩
  | true =>
    obtain ⟨place, next, -, edit, -⟩ := edit_of_read writes annotator read
    exact ⟨next, edit⟩

/-- The report of a document depends on its text only, whether edits are kept or not. -/
theorem report_congr (disk other : Disk) (annotator : Annotator) (same : now.read path = tree.read path) :
    (disk.host.process annotator now path).1 = (other.host.process annotator tree path).1 := by
  have first : disk.host.read now path = readDocument now path := rfl
  have second : other.host.read tree path = readDocument tree path := rfl
  simp only [Host.process, first, second, readDocument, same]
  cases read : tree.read path with
  | error fault => rfl
  | ok text =>
    obtain ⟨next, edit⟩ := edit_eq_ok disk annotator (same.trans read)
    obtain ⟨nextToo, editToo⟩ := edit_eq_ok other annotator read
    dsimp only
    split
    · split
      · rfl
      · simp only [edit, editToo]
    · rfl

theorem writes_dryRun (disk : Disk) : disk.dryRun.writes = false := rfl

theorem process_of_dry (dry : disk.writes = false) (annotator : Annotator) (tree : FileTree) (path : Path) :
    (disk.host.process annotator tree path).2 = tree :=
  (process_outcome disk annotator tree path).tree_of_dry dry

theorem processAll_of_dry (dry : disk.writes = false) (annotator : Annotator) (tree : FileTree) (files : List Path) :
    (disk.host.processAll annotator tree files).2 = tree := by
  induction files with
  | nil => rfl
  | cons path rest ih => simpa [Host.processAll, process_of_dry dry] using ih

end Documents

section Workspaces

variable {disk : Disk} {tree now : FileTree}

/-- Files that lead to different places are reported as if none of the others had been written. -/
theorem reports_dryRun (disk : Disk) (annotator : Annotator) {files : List Path} (apart : tree.LeadApart files)
    (shape : SameShape now tree)
    (unread : ∀ file ∈ files, ∀ place, tree.locate file = .ok place → now.content? place = tree.content? place) :
    (disk.host.processAll annotator now files).1 = (disk.dryRun.host.processAll annotator tree files).1 := by
  induction files generalizing now with
  | nil => rfl
  | cons path rest ih =>
    obtain ⟨others, later⟩ := List.pairwise_cons.mp apart
    have report : (disk.host.process annotator now path).1 = (disk.dryRun.host.process annotator tree path).1 :=
      report_congr disk disk.dryRun annotator (read_congr shape (unread path List.mem_cons_self))
    have outcome := process_outcome disk annotator now path
    have onward : (disk.host.processAll annotator (disk.host.process annotator now path).2 rest).1 =
        (disk.dryRun.host.processAll annotator tree rest).1 := by
      refine ih later (outcome.holds.shape.trans shape) ?_
      intro file listed place led
      -- what was written, if anything, is at the place of the first file
      have elsewhere : now.locate path ≠ .ok place := by
        rw [shape.locate]
        exact fun located => others file listed place located led
      rw [outcome.content_elsewhere elsewhere, unread file (List.mem_cons_of_mem _ listed) place led]
    simp only [Host.processAll, report, onward, process_of_dry disk.writes_dryRun]

/-- A dry run makes the reports of the run and leaves the tree as it is. -/
theorem regenerate_dryRun (disk : Disk) (tidy : tree.root.isTidy = true) :
    disk.dryRun.host.regenerate tree =
      (disk.host.regenerate tree).map fun (summary, _) => ({ summary with dryRun := true }, tree) := by
  have same : disk.dryRun.host.findFiles tree = disk.host.findFiles tree := rfl
  have baseUrl : disk.dryRun.host.baseUrl tree = disk.host.baseUrl tree := rfl
  simp only [Host.regenerate, same]
  cases found : disk.host.findFiles tree with
  | error failure => rfl
  | ok files =>
    have reports := reports_dryRun disk (Annotator.ofBaseUrl (disk.host.baseUrl tree))
      (walkSources_leadApart tidy found) (.refl tree) (fun _ _ _ _ => rfl)
    have kept := processAll_of_dry disk.writes_dryRun (Annotator.ofBaseUrl (disk.host.baseUrl tree)) tree files
    simp only [Except.map, baseUrl, reports, kept]
    rfl

theorem content_processAll_elsewhere (disk : Disk) (annotator : Annotator) {files : List Path} {place : List Text}
    (elsewhere : ∀ file ∈ files, tree.locate file ≠ .ok place) :
    (disk.host.processAll annotator tree files).2.content? place = tree.content? place := by
  induction files generalizing tree with
  | nil => rfl
  | cons path rest ih =>
    have outcome := process_outcome disk annotator tree path
    have later : ∀ file ∈ rest, (disk.host.process annotator tree path).2.locate file ≠ .ok place := by
      intro file listed
      rw [outcome.holds.shape.locate]
      exact elsewhere file (List.mem_cons_of_mem _ listed)
    have first := outcome.content_elsewhere (elsewhere path List.mem_cons_self)
    exact (ih later).trans first

/-- Files that lead to different places and keep their contents were not written. -/
theorem writesForAll_of_kept (disk : Disk) (annotator : Annotator) {files : List Path} (apart : tree.LeadApart files)
    (kept : ∀ place, (disk.host.processAll annotator tree files).2.content? place = tree.content? place) :
    disk.host.writesForAll annotator tree files = [] := by
  induction files with
  | nil => rfl
  | cons path rest ih =>
    obtain ⟨others, later⟩ := List.pairwise_cons.mp apart
    have onward : (disk.host.processAll annotator tree (path :: rest)).2 =
        (disk.host.processAll annotator (disk.host.process annotator tree path).2 rest).2 := rfl
    have written : disk.host.writesForAll annotator tree (path :: rest) = disk.host.writesFor annotator tree path ++
        disk.host.writesForAll annotator (disk.host.process annotator tree path).2 rest := rfl
    have outcome := process_outcome disk annotator tree path
    rw [onward] at kept
    rw [written]
    generalize disk.host.process annotator tree path = processed at *
    obtain ⟨report, next⟩ := processed
    generalize disk.host.writesFor annotator tree path = log at *
    cases outcome with
    | idle => exact ih later kept
    | checked => exact ih later kept
    | written report changed writes place next text located differs rewrites =>
      -- the text that was written stays, since the other files are elsewhere
      have elsewhere : ∀ file ∈ rest, next.locate file ≠ .ok place := by
        intro file listed
        rw [rewrites.shape.locate]
        exact others file listed place located
      have content := (content_processAll_elsewhere disk annotator elsewhere).symm.trans (kept place)
      rw [rewrites.inside] at content
      exact absurd content.symm differs

/-- A run that keeps edits writes nothing exactly if its dry run reports no change, and then it is the dry run. -/
theorem quiet_processAll (writes : disk.writes = true) (annotator : Annotator) (tree : FileTree) (files : List Path) :
    (disk.host.writesForAll annotator tree files = [] ↔
      ∀ report ∈ (disk.dryRun.host.processAll annotator tree files).1, report.changed = false) ∧
    (disk.host.writesForAll annotator tree files = [] →
      disk.host.processAll annotator tree files = disk.dryRun.host.processAll annotator tree files) := by
  induction files with
  | nil => simp [Host.writesForAll, Host.processAll]
  | cons path rest ih =>
    have outcome := process_outcome disk annotator tree path
    have report : (disk.host.process annotator tree path).1 = (disk.dryRun.host.process annotator tree path).1 :=
      report_congr disk disk.dryRun annotator rfl
    have first := outcome.log_eq_nil_iff writes
    rw [report] at first
    have kept := process_of_dry disk.writes_dryRun annotator tree path
    simp only [Host.writesForAll, Host.processAll, List.append_eq_nil_iff, kept, List.mem_append, Option.mem_toList]
    by_cases nothing : disk.host.writesFor annotator tree path = []
    · rw [outcome.tree_of_log nothing, report]
      refine ⟨⟨?_, ?_⟩, ?_⟩
      · rintro ⟨-, onward⟩ found (here | later)
        · exact first.mp nothing found here
        · exact ih.1.mp onward found later
      · intro unchanged
        exact ⟨nothing, ih.1.mpr fun found later => unchanged found (.inr later)⟩
      · rintro ⟨-, onward⟩
        rw [ih.2 onward]
    · refine ⟨⟨fun both => absurd both.1 nothing, fun unchanged => ?_⟩, fun both => absurd both.1 nothing⟩
      exact absurd (first.mpr fun found here => unchanged found (.inl here)) nothing

/-- The same for a whole regeneration. -/
theorem quiet_regenerate (writes : disk.writes = true) {summary checked : Summary} {next last : FileTree}
    (regenerated : disk.host.regenerate tree = .ok (summary, next))
    (checkedToo : disk.dryRun.host.regenerate tree = .ok (checked, last)) :
    last = tree ∧ (disk.host.writes tree = [] ↔ checked.changes = []) ∧
      (disk.host.writes tree = [] → next = tree ∧ summary.documents = checked.documents) := by
  have same : disk.dryRun.host.findFiles tree = disk.host.findFiles tree := rfl
  have baseUrl : disk.dryRun.host.baseUrl tree = disk.host.baseUrl tree := rfl
  simp only [Host.regenerate, same, baseUrl] at regenerated checkedToo
  cases found : disk.host.findFiles tree with
  | error failure => simp [found] at regenerated
  | ok files =>
    simp only [found, Except.ok.injEq, Prod.mk.injEq] at regenerated checkedToo
    obtain ⟨rfl, rfl⟩ := regenerated
    obtain ⟨rfl, rfl⟩ := checkedToo
    rw [Host.writes_of_findFiles found]
    have kept := processAll_of_dry disk.writes_dryRun (Annotator.ofBaseUrl (disk.host.baseUrl tree)) tree files
    obtain ⟨exact, equal⟩ := quiet_processAll writes
      (Annotator.ofBaseUrl (disk.host.baseUrl tree)) tree files
    refine ⟨kept, ?_, fun nothing => ?_⟩
    · rw [exact]
      simp [Summary.changes]
    · rw [equal nothing]
      exact ⟨kept, rfl⟩

/-- A regeneration that leaves the tree as it was has written nothing. -/
theorem writes_of_kept {disk : Disk} {tree : FileTree} {summary : Summary} (tidy : tree.root.isTidy = true)
    (regenerated : disk.host.regenerate tree = .ok (summary, tree)) : disk.host.writes tree = [] := by
  unfold Host.regenerate at regenerated
  split at regenerated
  · cases regenerated
  · rename_i files found
    have kept := congrArg Prod.snd (Except.ok.inj regenerated)
    rw [Host.writes_of_findFiles found]
    exact writesForAll_of_kept disk _ (walkSources_leadApart tidy found) fun place => congrArg (content? · place) kept

end Workspaces

end Disk

namespace Cli

open FileTree

def Arguments.checking (arguments : Arguments) : Arguments :=
  { arguments with check := true, list := false }

def Arguments.plain (arguments : Arguments) : Arguments :=
  { arguments with check := false, list := false }

/-- A run that meets no error: every path is scanned, and every document is read and written. -/
def Succeeds (arguments : Arguments) (tree : FileTree) : Prop :=
  ∃ summaries, (runPaths arguments tree arguments.targets).1 = .ok summaries ∧
    ∀ summary ∈ summaries, summary.failures = []

instance (arguments : Arguments) (tree : FileTree) : Decidable (Succeeds arguments tree) :=
  match finished : (runPaths arguments tree arguments.targets).1 with
  | .ok summaries =>
    decidable_of_iff (∀ summary ∈ summaries, summary.failures = [])
      ⟨fun clean => ⟨summaries, finished, clean⟩,
        fun ⟨_, ran, clean⟩ => Except.ok.inj (finished.symm.trans ran) ▸ clean⟩
  | .error _ => isFalse fun ⟨_, ran, _⟩ => nomatch finished.symm.trans ran

/-- A check of a path stops where the plain run does. Otherwise it keeps the tree, and it reports no change exactly if
the plain run writes nothing; then the two report the same. -/
theorem runPath_checking (arguments : Arguments) (tree : FileTree) (path : Path) :
    (∃ stop, runPath arguments.plain tree path = .error stop ∧ runPath arguments.checking tree path = .error stop) ∨
      ∃ summary next checked, runPath arguments.plain tree path = .ok (summary, next) ∧
        runPath arguments.checking tree path = .ok (checked, tree) ∧
        (pathWrites arguments.plain tree path = [] ↔ checked.changes = []) ∧
        (pathWrites arguments.plain tree path = [] → next = tree ∧ summary.documents = checked.documents) := by
  simp only [runPath, pathWrites, hostFor, Arguments.plain, Arguments.checking]
  cases tree.discoverConfig path with
  | error error => exact .inl ⟨_, rfl, rfl⟩
  | ok config =>
    simp only [Bool.or_false, Bool.false_eq_true, if_true, if_false]
    generalize made : Disk.ofTarget tree path (config.withBaseUrl arguments.baseUrl) = disk
    have writes : disk.writes = true := by
      rw [← made]
      rfl
    have sameFiles : disk.dryRun.host.findFiles tree = disk.host.findFiles tree := rfl
    cases found : disk.host.findFiles tree with
    | error failure =>
      refine .inl ⟨.scan path failure, ?_, ?_⟩
      · simp only [Host.regenerate, found]
      · simp only [Host.regenerate, sameFiles, found]
    | ok files =>
      have regenerated : ∃ summary next, disk.host.regenerate tree = .ok (summary, next) := by
        simp only [Host.regenerate, found]
        exact ⟨_, _, rfl⟩
      have checkedToo : ∃ checked last, disk.dryRun.host.regenerate tree = .ok (checked, last) := by
        simp only [Host.regenerate, sameFiles, found]
        exact ⟨_, _, rfl⟩
      obtain ⟨summary, next, regenerated⟩ := regenerated
      obtain ⟨checked, last, checkedToo⟩ := checkedToo
      obtain ⟨rfl, exact, equal⟩ := Disk.quiet_regenerate writes regenerated checkedToo
      exact .inr ⟨summary, next, checked, by rw [regenerated], by rw [checkedToo], exact, equal⟩

theorem runPaths_checking_tree (arguments : Arguments) (tree : FileTree) (paths : List Path) :
    (runPaths arguments.checking tree paths).2 = tree := by
  induction paths with
  | nil => rfl
  | cons path rest ih =>
    rcases runPath_checking arguments tree path with ⟨stop, -, stopped⟩ | ⟨-, -, checked, -, ran, -, -⟩
    · simp only [runPaths, stopped]
    · simpa only [runPaths, ran] using ih

/-- The documents of all summaries, unless the run stopped. -/
def documentsOf (result : Except Stop (List Summary)) : Except Stop (List (List Report)) :=
  result.map fun summaries => summaries.map (·.documents)

theorem documentsOf_map_cons (result : Except Stop (List Summary)) (summary : Summary) :
    documentsOf (result.map (summary :: ·)) = (documentsOf result).map (summary.documents :: ·) := by
  cases result <;> rfl

/-- A plain run that writes nothing reports what its check reports. -/
theorem documents_checking {arguments : Arguments} {tree : FileTree} {paths : List Path}
    (nothing : writes arguments.plain tree paths = []) :
    documentsOf (runPaths arguments.plain tree paths).1 = documentsOf (runPaths arguments.checking tree paths).1 := by
  induction paths with
  | nil => rfl
  | cons path rest ih =>
    rcases runPath_checking arguments tree path with
      ⟨stop, stopped, stoppedToo⟩ | ⟨summary, next, checked, ran, ranToo, -, equal⟩
    · simp only [runPaths, stopped, stoppedToo]
    · simp only [writes, ran, List.append_eq_nil_iff] at nothing
      obtain ⟨rfl, documents⟩ := equal nothing.1
      simp only [runPaths, ran, ranToo, documentsOf_map_cons, documents, ih nothing.2]

/-- A plain run writes nothing exactly if no path of it, in its turn, has changed the tree. -/
theorem writes_eq_nil_iff_kept {arguments : Arguments} {tree : FileTree} (tidy : tree.root.isTidy = true)
    {paths : List Path} : writes arguments.plain tree paths = [] ↔
      ∀ finished, finished <+: paths → (runPaths arguments.plain tree finished).2 = tree := by
  induction paths with
  | nil => simp [writes, runPaths]
  | cons path rest ih =>
    have split : (∀ finished, finished <+: path :: rest → (runPaths arguments.plain tree finished).2 = tree) ↔
        ∀ finished, finished <+: rest → (runPaths arguments.plain tree (path :: finished)).2 = tree := by
      constructor
      · exact fun kept finished front => kept _ (List.cons_prefix_cons.mpr ⟨rfl, front⟩)
      · intro kept finished front
        cases finished with
        | nil => rfl
        | cons first others =>
          obtain ⟨rfl, shorter⟩ := List.cons_prefix_cons.mp front
          exact kept others shorter
    rw [split]
    rcases runPath_checking arguments tree path with
      ⟨stop, stopped, -⟩ | ⟨summary, next, checked, ran, -, -, equal⟩
    · simp [writes, runPaths, stopped]
    · simp only [writes, runPaths, ran, List.append_eq_nil_iff]
      constructor
      · rintro ⟨nothing, onward⟩
        obtain ⟨rfl, -⟩ := equal nothing
        exact ih.mp onward
      · intro kept
        have same : next = tree := kept [] List.nil_prefix
        subst same
        obtain ⟨disk, made, regenerated⟩ := runPath_eq_ok ran
        refine ⟨?_, ih.mpr kept⟩
        rw [pathWrites, made]
        exact Disk.writes_of_kept tidy regenerated

/-- A plain run writes nothing exactly if its check reports no change, where the check does not stop. -/
theorem writes_eq_nil_iff {arguments : Arguments} {tree : FileTree} {paths : List Path} {summaries : List Summary}
    (checked : (runPaths arguments.checking tree paths).1 = .ok summaries) :
    writes arguments.plain tree paths = [] ↔ ∀ summary ∈ summaries, summary.changes = [] := by
  induction paths generalizing summaries with
  | nil =>
    cases checked
    simp [writes]
  | cons path rest ih =>
    rcases runPath_checking arguments tree path with
      ⟨stop, stopped, stoppedToo⟩ | ⟨summary, next, first, ran, ranToo, exact, equal⟩
    · simp [runPaths, stoppedToo] at checked
    · simp only [runPaths, ranToo] at checked
      cases onward : (runPaths arguments.checking tree rest).1 with
      | error stop => simp [onward, Except.map] at checked
      | ok later =>
        simp only [onward, Except.map, Except.ok.injEq] at checked
        subst checked
        simp only [writes, ran, List.append_eq_nil_iff, List.mem_cons, forall_eq_or_imp, ← exact]
        refine and_congr_right fun nothing => ?_
        rw [(equal nothing).1]
        exact ih onward

theorem checking_exit_iff (color : Bool) (arguments : Arguments) (tree : FileTree) :
    (run color arguments.checking tree).exit = 0 ↔
      ∃ summaries, (runPaths arguments.checking tree arguments.targets).1 = .ok summaries ∧
        (∀ summary ∈ summaries, summary.failures = []) ∧ ∀ summary ∈ summaries, summary.changes = [] := by
  have targets : arguments.checking.targets = arguments.targets := rfl
  have check : arguments.checking.check = true := rfl
  unfold run
  rw [targets]
  split
  · rename_i stop last stopped
    simp [stopped]
  · rename_i summaries last finished
    simp only [finished, Except.ok.injEq, exists_eq_left', verdict, check, Bool.true_and, decide_eq_true_eq,
      List.length_pos_iff, ← List.flatMap_eq_nil_iff]
    by_cases failing : summaries.flatMap (·.failures) = []
    · by_cases changing : summaries.flatMap (·.changes) = []
      · simp [failing, changing]
      · simp [failing, changing]
    · simp [failing]

theorem tree_run (color : Bool) (arguments : Arguments) (tree : FileTree) :
    (run color arguments tree).tree = (runPaths arguments tree arguments.targets).2 := by
  unfold run
  split
  · rename_i stop last stopped
    rw [stopped]
  · rename_i summaries last finished
    rw [finished]

theorem failures_of_documents {first second : List Summary}
    (same : first.map (·.documents) = second.map (·.documents)) (clean : ∀ summary ∈ first, summary.failures = []) :
    ∀ summary ∈ second, summary.failures = [] := by
  intro summary listed
  have reported : summary.documents ∈ first.map (·.documents) := same ▸ List.mem_map_of_mem listed
  obtain ⟨other, listedToo, documents⟩ := List.mem_map.mp reported
  have none := clean other listedToo
  rwa [Summary.failures, documents] at none

theorem holds_run (color : Bool) (arguments : Arguments) (tree : FileTree) :
    Holds tree (writes arguments tree arguments.targets) (run color arguments tree).tree := by
  rw [tree_run]
  exact holds_runPaths arguments _ tree

/-- A dry run predicts the run. Over one target it makes the same reports and keeps the tree. Over the paths of a
command line a check keeps the tree too, and where the plain run or the check meets no error, the check passes exactly
if the plain run writes no file. What the plain run writes is what its tree holds afterwards, and it writes nothing
exactly if the tree is the same after each of the paths. -/
theorem dry_run_predicts_run (tree : FileTree) :
    (tree.root.isTidy = true → ∀ (target : Path) (config : Config),
      (Disk.ofTarget tree target config).dryRun.host.regenerate tree =
        ((Disk.ofTarget tree target config).host.regenerate tree).map fun (summary, _) =>
          ({ summary with dryRun := true }, tree)) ∧
    ∀ (color : Bool) (arguments : Arguments), (run color arguments.checking tree).tree = tree ∧
      Holds tree (writes arguments.plain tree arguments.targets) (run color arguments.plain tree).tree ∧
      (tree.root.isTidy = true → (writes arguments.plain tree arguments.targets = [] ↔
        ∀ finished, finished <+: arguments.targets → (runPaths arguments.plain tree finished).2 = tree)) ∧
      (Succeeds arguments.plain tree ∨ Succeeds arguments.checking tree →
        ((run color arguments.checking tree).exit = 0 ↔ writes arguments.plain tree arguments.targets = [])) := by
  refine ⟨fun tidy target config => Disk.regenerate_dryRun _ tidy, fun color arguments =>
    ⟨?_, holds_run color arguments.plain tree, fun tidy => writes_eq_nil_iff_kept tidy,
    fun clean => ?_⟩⟩
  · rw [tree_run]
    exact runPaths_checking_tree arguments tree _
  · rw [checking_exit_iff]
    constructor
    · rintro ⟨summaries, checked, -, unchanged⟩
      exact (writes_eq_nil_iff checked).mpr unchanged
    · intro nothing
      have same := documents_checking nothing
      rcases clean with ⟨summaries, finished, none⟩ | ⟨summaries, checked, none⟩
      · have targets : arguments.plain.targets = arguments.targets := rfl
        rw [targets] at finished
        rw [finished] at same
        cases checked : (runPaths arguments.checking tree arguments.targets).1 with
        | error stop => simp [checked, documentsOf, Except.map] at same
        | ok others =>
          simp only [checked, documentsOf, Except.map, Except.ok.injEq] at same
          exact ⟨others, rfl, failures_of_documents same none, (writes_eq_nil_iff checked).mp nothing⟩
      · exact ⟨summaries, checked, none, (writes_eq_nil_iff checked).mp nothing⟩

def directoryThenFile : Arguments :=
  { Arguments.empty with paths := [.ofText ".".toList, .ofText "A.java".toList] }

/-- The one file of `bareController` with its comment. -/
def bareAnnotated : Text :=
  ("@Controller class A \x7b\n    // GET https://localhost:8080/x\n    @GetMapping(\"/x\")\n" ++
    "    public void x() \x7b\x7d\n\x7d\n").toList

theorem bareController_dry_run :
    bareController.root.isTidy = true ∧ Succeeds directoryThenFile.checking bareController ∧
      (Disk.ofTarget bareController (.ofText ".".toList) Config.standard).dryRun.host.regenerate bareController =
        ((Disk.ofTarget bareController (.ofText ".".toList) Config.standard).host.regenerate bareController).map
          (fun (summary, _) => ({ summary with dryRun := true }, bareController)) ∧
      (run false directoryThenFile.checking bareController).tree = bareController ∧
      (run false directoryThenFile.checking bareController).exit = 1 ∧
      (runPaths directoryThenFile.plain bareController [.ofText ".".toList]).2.content? ["A.java".toList] =
        some (.text bareAnnotated) ∧
      writes directoryThenFile.plain bareController directoryThenFile.targets ≠ [] ∧
      Holds bareController (writes directoryThenFile.plain bareController directoryThenFile.targets)
        (run false directoryThenFile.plain bareController).tree := by
  have tidy : bareController.root.isTidy = true := by decide +kernel
  have clean : Succeeds directoryThenFile.checking bareController := by decide +kernel
  have failed : (run false directoryThenFile.checking bareController).exit = 1 := by decide +kernel
  have written : (runPaths directoryThenFile.plain bareController [.ofText ".".toList]).2.content? ["A.java".toList] =
      some (.text bareAnnotated) := by
    decide +kernel
  obtain ⟨predicted, ofArguments⟩ := dry_run_predicts_run bareController
  obtain ⟨kept, holds, -, checked⟩ := ofArguments false directoryThenFile
  refine ⟨tidy, clean, predicted tidy _ _, kept, failed, written, fun nothing => ?_, holds⟩
  have passed := (checked (.inr clean)).mpr nothing
  rw [failed] at passed
  cases passed

end Cli

end RouteComments
