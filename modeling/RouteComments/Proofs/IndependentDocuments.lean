import RouteComments.Proofs.Interleavings
import RouteComments.Workspace.Memory

set_option autoImplicit false

namespace RouteComments

open Text

namespace PathMap

variable {β : Type}

theorem same_self (path : Path) : path.same path = true :=
  same_iff.mpr rfl

theorem get?_of_same {first second : Path} (same : first.same second = true) (map : PathMap β) :
    map.get? first = map.get? second := by
  have components := same_iff.mp same
  induction map with
  | nil => rfl
  | cons entry rest ih =>
    obtain ⟨name, value⟩ := entry
    have alike : first.same name = second.same name := by simp [Path.same, components]
    simp only [get?, alike, ih]

theorem get?_ne_none_of_mem {path : Path} {map : PathMap β} (member : path ∈ map.paths) : map.get? path ≠ none := by
  induction map with
  | nil => exact absurd member List.not_mem_nil
  | cons entry rest ih =>
    obtain ⟨name, value⟩ := entry
    by_cases here : path.same name = true
    · simp [get?, here]
    · have different : path ≠ name := fun same => here (same ▸ same_self path)
      have later : path ∈ paths rest := by simpa [paths, different] using member
      simpa [get?, here] using ih later

end PathMap

namespace Memory

open Host

/-- A state whose files can be found and which keeps edits. Its files have different paths, and any of them may be
refused. The paths that are found beside the files and not refused have no file: one with a text would be found twice,
and written by both. -/
structure Ready (memory : Memory) : Prop where
  visible : memory.hidden = false
  persists : memory.persists = true
  distinct : memory.files.paths.Pairwise fun first second => first.same second = false
  unread : ∀ path ∈ memory.unreadable, memory.readable? path = none

/-- The paths that are found beside those of the files. -/
def others (memory : Memory) : List Path :=
  memory.unreadable ++ memory.refused

/-- Whether a path is one at which nothing can be read, in any of its spellings. -/
def isUnreadable (memory : Memory) (path : Path) : Bool :=
  memory.others.any (path.same ·)

variable {memory : Memory} {path other : Path}

/-- Every map with different paths is ready, whichever paths are refused. -/
theorem ready_of_refused (visible : memory.hidden = false) (persists : memory.persists = true)
    (distinct : memory.files.paths.Pairwise fun first second => first.same second = false)
    (refused : memory.unreadable = []) : memory.Ready where
  visible := visible
  persists := persists
  distinct := distinct
  unread path listed := by
    rw [refused] at listed
    cases listed

theorem findFiles_eq (ready : memory.Ready) : host.findFiles memory = .ok memory.paths :=
  if_neg (by simp [ready.visible])

theorem read_of_none (missing : memory.readable? path = none) :
    host.read memory path = .error (.read path .denied) := by
  simp only [host, missing]

theorem read_of_some {text : Text} (found : memory.readable? path = some text) : host.read memory path = .ok text := by
  simp only [host, found]

theorem get?_of_readable? {text : Text} (found : memory.readable? path = some text) :
    memory.files.get? path = some text := by
  unfold readable? at found
  split at found
  · cases found
  · exact found

theorem isRefused_of_same (same : path.same other = true) : memory.isRefused path = memory.isRefused other := by
  have components := PathMap.same_iff.mp same
  simp only [isRefused, Path.same, components]

theorem readable?_of_same (same : path.same other = true) : memory.readable? path = memory.readable? other := by
  rw [readable?, readable?, isRefused_of_same same, PathMap.get?_of_same same]

theorem readable?_of_others (ready : memory.Ready) (listed : path ∈ memory.others) : memory.readable? path = none := by
  rcases List.mem_append.mp listed with unreadable | refused
  · exact ready.unread path unreadable
  · exact if_pos (List.any_eq_true.mpr ⟨path, refused, PathMap.same_self path⟩)

/-- Of the paths that are found, those without a text to read are the unreadable ones. -/
theorem readable?_eq_none_iff (ready : memory.Ready) (found : path ∈ memory.paths) :
    memory.readable? path = none ↔ memory.isUnreadable path = true := by
  constructor
  · intro missing
    have split : path ∈ memory.files.paths ++ memory.others := List.mem_mergeSort.mp found
    rcases List.mem_append.mp split with inFiles | listed
    · unfold readable? at missing
      split at missing
      · rename_i refused
        obtain ⟨file, listed, same⟩ := List.any_eq_true.mp refused
        exact List.any_eq_true.mpr ⟨file, List.mem_append_right _ listed, same⟩
      · exact absurd missing (PathMap.get?_ne_none_of_mem inFiles)
    · exact List.any_eq_true.mpr ⟨path, listed, PathMap.same_self path⟩
  · intro unreadable
    obtain ⟨file, listed, same⟩ := List.any_eq_true.mp unreadable
    rw [readable?_of_same same, readable?_of_others ready listed]

/-- Only a path that cannot be read is found twice. -/
theorem apart_paths (ready : memory.Ready) : Apart host memory memory.paths := by
  have unread : ∀ {path}, memory.readable? path = none → (host.read memory path).isOk = false := by
    intro path missing
    rw [read_of_none missing]
    rfl
  have both : ∀ first second, second ∈ memory.others → first.same second = true →
      (host.read memory first).isOk = false ∧ (host.read memory second).isOk = false := by
    intro first second listed same
    have missing := readable?_of_others ready listed
    exact ⟨unread ((readable?_of_same same).trans missing), unread missing⟩
  have listed : Apart host memory (memory.files.paths ++ memory.others) := by
    refine List.pairwise_append.mpr ⟨ready.distinct.imp ?_, ?_, fun first _ second listed => both first second listed⟩
    · intro first second apart same
      rw [apart] at same
      cases same
    · exact List.pairwise_of_forall_mem_list fun first _ second listed => both first second listed
  refine (List.Perm.pairwise_iff ?_ (List.mergeSort_perm _ _)).mpr listed
  intro first second apart same
  rw [Path.same_comm] at same
  exact (apart same).symm

theorem edit_of_some {doc : Document} {fault : WriteFault} (unwritable : memory.unwritable.lookup doc.path = some fault)
    (operations : List Operation) : host.edit memory doc operations = .error (editFailure doc.path fault) := by
  simp only [host, unwritable]

theorem edit_of_none {doc : Document} (persists : memory.persists = true)
    (writable : memory.unwritable.lookup doc.path = none) (operations : List Operation) :
    host.edit memory doc operations =
      .ok { memory with files := memory.files.put doc.path (doc.edited operations) } := by
  simp only [host, writable, keep, if_pos persists]

theorem edit_eq_ok {next : Memory} {doc : Document} {operations : List Operation} (persists : memory.persists = true)
    (edit : host.edit memory doc operations = .ok next) :
    next = { memory with files := memory.files.put doc.path (doc.edited operations) } := by
  cases fault : memory.unwritable.lookup doc.path with
  | some found =>
    rw [edit_of_some fault] at edit
    cases edit
  | none =>
    rw [edit_of_none persists fault] at edit
    cases edit
    rfl

theorem alike_of_eq {first second : Memory} (text : first.files.get? path = second.files.get? path)
    (refused : first.isRefused path = second.isRefused path)
    (fault : first.unwritable.lookup path = second.unwritable.lookup path) :
    Alike host (fun memory path => memory.files.get? path) first second path := by
  refine ⟨by simp only [host, readable?, refused, text], fun found operations => ?_, text⟩
  simp only [refusal?, host, fault]
  cases second.unwritable.lookup path <;> rfl

/-- The host in memory keeps the texts of different paths apart. -/
theorem keepsTexts : KeepsTexts host fun memory path => memory.files.get? path where
  text_of_same := fun same => PathMap.get?_of_same same _
  edited := by
    intro memory next doc operations persists edit
    rw [edit_eq_ok persists edit]
    exact PathMap.get?_put_of_same _ _ (PathMap.same_self doc.path)
  untouched := by
    intro memory next doc operations persists edit path apart
    rw [edit_eq_ok persists edit]
    exact alike_of_eq (PathMap.get?_put_of_not_same _ memory.files apart) rfl rfl
  persists := by
    intro memory next doc operations persists edit
    rw [edit_eq_ok persists edit]
    exact persists

/-- What regenerating one file can do, in terms of its text and of whether it can be written. -/
inductive Outcome (annotator : Annotator) (memory : Memory) (path : Path) : Option Report × Memory → Prop where
  | unreadable (message : Text) (missing : memory.readable? path = none) :
    Outcome annotator memory path (some { path, blocks := [], changed := false, error := some message }, memory)
  | passed (text : Text) (found : memory.readable? path = some text) (other : Mapping.isController text = false) :
    Outcome annotator memory path (none, memory)
  | current (text : Text) (blocks : Plan) (found : memory.readable? path = some text)
      (controller : Mapping.isController text = true) (same : annotator.annotate { path, text } = text) :
    Outcome annotator memory path (some { path, blocks, changed := false, error := none }, memory)
  | unwritable (text : Text) (blocks : Plan) (message : Text) (found : memory.readable? path = some text)
      (controller : Mapping.isController text = true) (differs : annotator.annotate { path, text } ≠ text)
      (fault : memory.unwritable.lookup path ≠ none) :
    Outcome annotator memory path (some { path, blocks, changed := false, error := some message }, memory)
  | rewritten (text : Text) (blocks : Plan) (found : memory.readable? path = some text)
      (controller : Mapping.isController text = true) (differs : annotator.annotate { path, text } ≠ text)
      (writable : memory.unwritable.lookup path = none) :
    Outcome annotator memory path (some { path, blocks, changed := true, error := none },
      { memory with files := memory.files.put path (annotator.annotate { path, text }) })

theorem process_outcome (annotator : Annotator) (persists : memory.persists = true) (path : Path) :
    Outcome annotator memory path (host.process annotator memory path) := by
  rw [process]
  cases found : memory.readable? path with
  | none =>
    rw [read_of_none found]
    exact .unreadable _ found
  | some text =>
    rw [read_of_some found]
    by_cases controller : Mapping.isController text = true
    · by_cases same : annotator.annotate { path, text } = text
      · have kept : (annotator.plan { path, text }).apply { path, text } = text := same
        simp only [controller, if_true, kept]
        exact .current text _ found controller same
      · have differs : (annotator.plan { path, text }).apply { path, text } ≠ text := same
        simp only [controller, if_true, if_neg differs]
        cases fault : memory.unwritable.lookup path with
        | some reason =>
          rw [edit_of_some fault]
          exact .unwritable text _ _ found controller same (by simp [fault])
        | none =>
          rw [edit_of_none persists fault]
          exact .rewritten text _ found controller same fault
    · have other : Mapping.isController text = false := by simpa using controller
      simp only [other]
      exact .passed text found other

/-- A file that is found, can be read, is a controller and can be written. -/
structure Rewritable (memory : Memory) (path : Path) (text : Text) : Prop where
  found : path ∈ memory.paths
  read : memory.readable? path = some text
  controller : Mapping.isController text = true
  writable : memory.unwritable.lookup path = none

/-- A write that a file needs and that fails. -/
structure Blocked (annotator : Annotator) (memory : Memory) (path : Path) (text : Text) : Prop where
  read : memory.readable? path = some text
  controller : Mapping.isController text = true
  differs : annotator.annotate { path, text } ≠ text
  fault : memory.unwritable.lookup path ≠ none

section Outcomes

variable {annotator : Annotator} {after : Option Report × Memory}

theorem Outcome.isSome (outcome : Outcome annotator memory path after) :
    after.1.isSome = (memory.readable? path).all Mapping.isController := by
  cases outcome with
  | unreadable message missing => simp [missing]
  | passed text found other => simp [found, other]
  | current text blocks found controller same => simp [found, controller]
  | unwritable text blocks message found controller differs fault => simp [found, controller]
  | rewritten text blocks found controller differs writable => simp [found, controller]

theorem Outcome.text_of_rewritable (outcome : Outcome annotator memory path after) {text : Text}
    (rewritable : memory.Rewritable path text) :
    after.2.files.get? path = some (annotator.annotate { path, text }) := by
  have read := rewritable.read
  have controller := rewritable.controller
  cases outcome with
  | unreadable message missing => simp [missing] at read
  | passed other found differs =>
    cases found.symm.trans read
    simp [controller] at differs
  | current other blocks found _ same =>
    cases found.symm.trans read
    rw [same]
    exact get?_of_readable? read
  | unwritable other blocks message found _ differs fault => exact absurd rewritable.writable fault
  | rewritten other blocks found _ differs writable =>
    cases found.symm.trans read
    exact PathMap.get?_put_of_same _ _ (PathMap.same_self path)

theorem Outcome.text_of_not_rewritable (outcome : Outcome annotator memory path after) (listed : path ∈ memory.paths)
    (kept : ∀ text, ¬ memory.Rewritable path text) : after.2.files.get? path = memory.files.get? path := by
  cases outcome with
  | rewritten text blocks found controller differs writable =>
    exact absurd ⟨listed, found, controller, writable⟩ (kept text)
  | _ => rfl

theorem Outcome.path_eq (outcome : Outcome annotator memory path after) {report : Report}
    (reported : after.1 = some report) : report.path = path := by
  cases outcome with
  | passed => cases reported
  | _ =>
    cases reported
    rfl

/-- A report says what happened to the text of its file. -/
theorem Outcome.report (outcome : Outcome annotator memory path after) {report : Report}
    (reported : after.1 = some report) :
    (report.changed = true ↔ after.2.files.get? path ≠ memory.files.get? path) ∧
      (report.error.isSome = true ↔
        memory.readable? path = none ∨ ∃ text, Blocked annotator memory path text) ∧
      (report.error.isSome = true → after.2.files.get? path = memory.files.get? path) := by
  cases outcome with
  | passed text found other => cases reported
  | unreadable message missing =>
    cases reported
    simp [missing]
  | current text blocks found controller same =>
    cases reported
    have free : ¬ ∃ text, Blocked annotator memory path text := by
      rintro ⟨other, blocked⟩
      cases found.symm.trans blocked.read
      exact blocked.differs same
    simp [found, free]
  | unwritable text blocks message found controller differs fault =>
    cases reported
    have blocked : ∃ text, Blocked annotator memory path text := ⟨text, found, controller, differs, fault⟩
    simp [blocked]
  | rewritten text blocks found controller differs writable =>
    cases reported
    have free : ¬ ∃ text, Blocked annotator memory path text := fun ⟨_, blocked⟩ => blocked.fault writable
    have put := PathMap.get?_put_of_same (annotator.annotate { path, text }) memory.files (PathMap.same_self path)
    simp [found, get?_of_readable? found, free, put, differs]

end Outcomes

/-- A text that no rewritable file holds stays. -/
theorem text_of_kept {annotator : Annotator} {last : Memory} (persists : memory.persists = true)
    (settled : Settled host (fun memory path => memory.files.get? path) annotator memory memory.paths last)
    (kept : ∀ file text, memory.Rewritable file text → path.same file = false) :
    last.files.get? path = memory.files.get? path := by
  rcases same_or_apart memory.paths path with ⟨file, listed, same⟩ | apart
  · have fixed : ∀ text, ¬ memory.Rewritable file text := by
      intro text rewritable
      rw [kept file text rewritable] at same
      cases same
    rw [PathMap.get?_of_same same, PathMap.get?_of_same same, settled.inside file listed]
    exact (process_outcome annotator persists file).text_of_not_rewritable listed fixed
  · exact settled.outside path apart

/-- Of reports that name their files, those of one file are what it gets by itself, each time that it is found. -/
theorem reports_of_file {files : List Path} {alone : Path → Option Report}
    (named : ∀ path report, alone path = some report → report.path = path) (file : Path) :
    (files.filterMap alone).filter (·.path = file) = (List.replicate (files.count file) file).filterMap alone := by
  rw [List.filter_filterMap, ← List.filter_eq, List.filterMap_filter]
  apply List.filterMap_congr
  intro path _
  cases found : alone path with
  | none => simp
  | some report => simp [Option.filter, named path report found]

theorem reports_summaryAlone (ready : memory.Ready) (file : Path) :
    (host.summaryAlone memory memory.paths).documents.filter (·.path = file) =
      (List.replicate (memory.paths.count file) file).filterMap fun path =>
        (host.process (Annotator.ofBaseUrl (host.baseUrl memory)) memory path).1 :=
  reports_of_file (fun path _ => (process_outcome _ ready.persists path).path_eq) file

/-- The files that get a report, in the order of discovery. -/
theorem paths_summaryAlone (ready : memory.Ready) :
    (host.summaryAlone memory memory.paths).documents.map (·.path) = memory.paths.filter (fun path =>
      memory.isUnreadable path || (memory.files.get? path).any Mapping.isController) := by
  rw [summaryAlone, List.map_filterMap, ← List.filterMap_eq_filter]
  apply List.filterMap_congr
  intro path found
  have outcome := process_outcome (Annotator.ofBaseUrl (host.baseUrl memory)) ready.persists path
  have unreadable := readable?_eq_none_iff ready found
  have reported : (host.process (Annotator.ofBaseUrl (host.baseUrl memory)) memory path).1.isSome =
      (memory.isUnreadable path || (memory.files.get? path).any Mapping.isController) := by
    rw [outcome.isSome]
    cases text : memory.readable? path with
    | none => simp [unreadable.mp text]
    | some content =>
      have readable : memory.isUnreadable path = false := by
        rw [Bool.eq_false_iff]
        intro listed
        simp [unreadable.mpr listed] at text
      simp [readable, get?_of_readable? text]
  rw [Option.guard, ← reported]
  cases alone : (host.process (Annotator.ofBaseUrl (host.baseUrl memory)) memory path).1 with
  | none => rfl
  | some report => simp [outcome.path_eq alone]

/-- Regeneration of files in memory does not depend on the order in which the steps of the documents are taken. A file
that is found, read, a controller and writable holds its annotated text afterwards, and every other text is as before.
There is a report for each path that is unreadable or a controller, in the order of discovery; it says whether the text
has changed, and whether a read or a needed write failed, which leaves the text as it was. How a file is handled depends
on its own text and its own faults only. -/
theorem regenerate_any_order (memory : Memory) (ready : memory.Ready) :
    let annotator := Annotator.ofBaseUrl (host.baseUrl memory)
    ∃ summary last, host.regenerate memory = .ok (summary, last) ∧
      (∀ schedule, Completes schedule memory.paths.length → ∃ other,
        host.regenerateBy schedule memory = .ok (summary, other) ∧
          ∀ path, other.files.get? path = last.files.get? path) ∧
      (∀ path text, memory.Rewritable path text →
        last.files.get? path = some (annotator.annotate { path, text })) ∧
      (∀ path, (∀ file text, memory.Rewritable file text → path.same file = false) →
        last.files.get? path = memory.files.get? path) ∧
      summary.documents.map (·.path) = memory.paths.filter (fun path =>
        memory.isUnreadable path || (memory.files.get? path).any Mapping.isController) ∧
      (∀ report ∈ summary.documents,
        (report.changed = true ↔ last.files.get? report.path ≠ memory.files.get? report.path) ∧
        (report.error.isSome = true ↔
          memory.isUnreadable report.path = true ∨ ∃ text, Blocked annotator memory report.path text) ∧
        (report.error.isSome = true → last.files.get? report.path = memory.files.get? report.path)) ∧
      ∀ other : Memory, other.Ready → host.baseUrl other = host.baseUrl memory →
        ∃ otherSummary otherLast, host.regenerate other = .ok (otherSummary, otherLast) ∧
          ∀ file ∈ memory.paths, other.paths.count file = memory.paths.count file →
            other.files.get? file = memory.files.get? file → other.isRefused file = memory.isRefused file →
            other.unwritable.lookup file = memory.unwritable.lookup file →
            otherSummary.documents.filter (·.path = file) = summary.documents.filter (·.path = file) ∧
              otherLast.files.get? file = last.files.get? file := by
  intro annotator
  have outcome : ∀ path, Outcome annotator memory path (host.process annotator memory path) :=
    process_outcome annotator ready.persists
  obtain ⟨last, regenerated, settled⟩ :=
    regenerate_complete keepsTexts (findFiles_eq ready) (apart_paths ready) ready.persists
  refine ⟨_, last, regenerated, ?_, ?_, ?_, paths_summaryAlone ready, ?_, ?_⟩
  · intro schedule completes
    obtain ⟨other, regeneratedBy, settledToo⟩ :=
      regenerateBy_complete keepsTexts (findFiles_eq ready) (apart_paths ready) ready.persists completes
    exact ⟨other, regeneratedBy, settled.unique keepsTexts settledToo⟩
  · intro path text rewritable
    rw [settled.inside path rewritable.found]
    exact (outcome path).text_of_rewritable rewritable
  · exact fun path kept => text_of_kept ready.persists settled kept
  · intro report reported
    obtain ⟨file, found, alone⟩ := List.mem_filterMap.mp reported
    have facts := (outcome file).report alone
    rw [(outcome file).path_eq alone, settled.inside file found, ← readable?_eq_none_iff ready found]
    exact facts
  · intro other readyToo sameUrl
    obtain ⟨otherLast, regeneratedToo, settledToo⟩ :=
      regenerate_complete keepsTexts (findFiles_eq readyToo) (apart_paths readyToo) readyToo.persists
    refine ⟨_, otherLast, regeneratedToo, fun file found often sameText sameRefusal sameFault => ?_⟩
    have foundToo : file ∈ other.paths := by
      rw [← List.count_pos_iff, often]
      exact List.count_pos_iff.mpr found
    have alike := (alike_of_eq sameText sameRefusal sameFault).process keepsTexts annotator readyToo.persists
      ready.persists
    rw [sameUrl] at settledToo
    refine ⟨?_, ?_⟩
    · rw [reports_summaryAlone readyToo, reports_summaryAlone ready, sameUrl, often]
      apply List.filterMap_congr
      intro path copied
      rw [List.eq_of_mem_replicate copied]
      exact alike.1
    · rw [settledToo.inside file foundToo, settled.inside file found]
      exact alike.2

def homeController : Text :=
  "@Controller class A \x7b\n    @GetMapping(\"/home\")\n    public void home() \x7b\x7d\n\x7d\n".toList

/-- That controller with the comment of its mapping. -/
def homeAnnotated : Text :=
  ("@Controller class A \x7b\n    // GET http://h/home\n" ++
    "    @GetMapping(\"/home\")\n    public void home() \x7b\x7d\n\x7d\n").toList

/-- A controller, one that cannot be written, a file that is none, a controller that cannot be read, and a path without
a file. -/
def mixedFiles : Memory where
  files := [(.ofText "A.java".toList, homeController), (.ofText "B.java".toList, homeController),
    (.ofText "C.java".toList, "class C \x7b\x7d".toList), (.ofText "D.java".toList, homeController)]
  projectFiles := []
  baseUrl := some "http://h".toList
  unreadable := []
  unwritable := [(.ofText "B.java".toList, .denied)]
  hidden := false
  persists := true
  refused := [.ofText "D.java".toList, .ofText "E.java".toList]

theorem paths_mixedFiles : mixedFiles.paths = [.ofText "A.java".toList, .ofText "B.java".toList,
    .ofText "C.java".toList, .ofText "D.java".toList, .ofText "D.java".toList, .ofText "E.java".toList] := by
  rw [paths, List.mergeSort_of_pairwise]
  · rfl
  · decide +kernel

theorem rewritable_mixedFiles {text : Text} (rewritable : mixedFiles.Rewritable path text) :
    path = .ofText "A.java".toList := by
  have each : ∀ file ∈ mixedFiles.paths, file = .ofText "A.java".toList ∨
      (mixedFiles.readable? file).any Mapping.isController = false ∨ mixedFiles.unwritable.lookup file ≠ none := by
    rw [paths_mixedFiles]
    decide +kernel
  rcases each path rewritable.found with first | other | fault
  · exact first
  · simp [rewritable.read, rewritable.controller] at other
  · exact absurd rewritable.writable fault

theorem mixedFiles_any_order :
    mixedFiles.Ready ∧ ∃ summary last other, host.regenerate mixedFiles = .ok (summary, last) ∧
      host.regenerateBy [3, 1, 0, 5, 2, 4, 2, 0, 5, 1, 3, 4] mixedFiles = .ok (summary, other) ∧
      (∀ path, other.files.get? path = last.files.get? path) ∧
      summary.documents.map (·.path) = [.ofText "A.java".toList, .ofText "B.java".toList, .ofText "D.java".toList,
        .ofText "D.java".toList, .ofText "E.java".toList] ∧
      last.files.get? (.ofText "A.java".toList) = some homeAnnotated ∧
      last.files.get? (.ofText "B.java".toList) = some homeController ∧
      last.files.get? (.ofText "D.java".toList) = some homeController := by
  have ready : mixedFiles.Ready := ready_of_refused rfl rfl (by decide +kernel) rfl
  obtain ⟨summary, last, regenerated, orders, rewritten, kept, listed, _⟩ := regenerate_any_order mixedFiles ready
  obtain ⟨other, regeneratedBy, same⟩ := orders [3, 1, 0, 5, 2, 4, 2, 0, 5, 1, 3, 4]
    (paths_mixedFiles ▸ by decide)
  have first : mixedFiles.Rewritable (.ofText "A.java".toList) homeController :=
    ⟨paths_mixedFiles ▸ List.mem_cons_self, by decide +kernel, by decide +kernel, by decide +kernel⟩
  have annotated : (Annotator.ofBaseUrl "http://h".toList).annotate
      { path := .ofText "A.java".toList, text := homeController } = homeAnnotated := by
    decide +kernel
  rw [paths_mixedFiles] at listed
  refine ⟨ready, summary, last, other, regenerated, regeneratedBy, same, listed.trans (by decide +kernel),
    (rewritten _ _ first).trans (congrArg some annotated), ?_, ?_⟩
  · refine (kept (.ofText "B.java".toList) fun file text rewritable => ?_).trans (by decide +kernel)
    rw [rewritable_mixedFiles rewritable]
    decide +kernel
  · refine (kept (.ofText "D.java".toList) fun file text rewritable => ?_).trans (by decide +kernel)
    rw [rewritable_mixedFiles rewritable]
    decide +kernel

end Memory

end RouteComments
