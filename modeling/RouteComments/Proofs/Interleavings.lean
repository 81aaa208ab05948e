import Mathlib.Data.List.Basic
import RouteComments.Path.Map
import RouteComments.Workspace.Schedule

set_option autoImplicit false

namespace RouteComments

open Text

theorem Path.same_comm (first second : Path) : first.same second = second.same first := by
  simp [same, eq_comm]

namespace Host

variable {σ : Type}

section Steps

/-- A document is regenerated in two steps. -/
theorem advance_twice (host : Host σ) (annotator : Annotator) (state : σ) (path : Path) :
    host.advance annotator (host.advance annotator state path .waiting).2 path
        (host.advance annotator state path .waiting).1 =
      (.finished (host.process annotator state path).1, (host.process annotator state path).2) := by
  simp only [advance, look, process]
  cases host.read state path with
  | error failure => rfl
  | ok text =>
    by_cases controller : Mapping.isController text = true
    · by_cases same : annotator.annotate { path, text } = text
      · have kept : (annotator.plan { path, text }).apply { path, text } = text := same
        simp [controller, same, kept]
      · have differs : (annotator.plan { path, text }).apply { path, text } ≠ text := same
        cases edit : host.edit state { path, text } (annotator.plan { path, text }).orderedOperations with
        | error failure => simp only [controller, if_true, if_neg same, if_neg differs, write, edit]
        | ok next => simp only [controller, if_true, if_neg same, if_neg differs, write, edit]
    · simp [controller]

theorem left_advance_le (host : Host σ) (annotator : Annotator) (state : σ) (path : Path) (progress : Progress) :
    (host.advance annotator state path progress).1.left ≤ progress.left - 1 := by
  cases progress with
  | waiting =>
    simp only [advance, look]
    split
    · simp [Progress.left]
    · split
      · split <;> simp [Progress.left]
      · simp [Progress.left]
  | planned text => simp [advance, Progress.left]
  | finished report => simp [advance, Progress.left]

end Steps

section Runs

namespace Work

variable {host : Host σ} {annotator : Annotator}

theorem run_append (first second : List Nat) (work : Work σ) :
    run host annotator (first ++ second) work = run host annotator second (run host annotator first work) :=
  List.foldl_append

theorem step_eq {work : Work σ} {index : Nat} {path : Path} {progress : Progress}
    (here : work.documents[index]? = some (path, progress)) :
    work.step host annotator index =
      { state := (host.advance annotator work.state path progress).2
        documents := work.documents.set index (path, (host.advance annotator work.state path progress).1) } := by
  simp only [step, here]

theorem step_append (host : Host σ) (annotator : Annotator) (state : σ) (ready waiting : List (Path × Progress))
    (path : Path) (progress : Progress) :
    step host annotator { state, documents := ready ++ (path, progress) :: waiting } ready.length =
      { state := (host.advance annotator state path progress).2
        documents := ready ++ (path, (host.advance annotator state path progress).1) :: waiting } := by
  have here : (ready ++ (path, progress) :: waiting)[ready.length]? = some (path, progress) := by simp
  rw [step, here]
  simp

/-- Two turns regenerate a document that waits. -/
theorem run_twice (state : σ) (ready waiting : List (Path × Progress)) (path : Path) :
    run host annotator [ready.length, ready.length] { state, documents := ready ++ (path, .waiting) :: waiting } =
      { state := (host.process annotator state path).2
        documents := ready ++ (path, .finished (host.process annotator state path).1) :: waiting } := by
  simp only [run, List.foldl_cons, List.foldl_nil, step_append, advance_twice]

/-- One document after the other is one of the orders. -/
theorem run_inOrder (host : Host σ) (annotator : Annotator) (files : List Path) (state : σ)
    (ready : List (Path × Progress)) :
    let work := run host annotator ((List.range' ready.length files.length).flatMap fun index => [index, index])
      { state, documents := ready ++ files.map fun path => (path, .waiting) }
    work.state = (host.processAll annotator state files).2 ∧
      work.reports = ready.filterMap (·.2.report?) ++ (host.processAll annotator state files).1 := by
  -- the documents in front of the one whose turn it is are finished already
  induction files generalizing state ready with
  | nil => simp [run, reports, processAll]
  | cons path rest ih =>
    have onward := ih (host.process annotator state path).2
      (ready ++ [(path, .finished (host.process annotator state path).1)])
    have shape : ∀ progress : Progress, ready ++ (path, progress) :: rest.map (fun path => (path, Progress.waiting)) =
        (ready ++ [(path, progress)]) ++ rest.map fun path => (path, .waiting) := by simp
    rw [List.length_cons, List.range'_succ, List.flatMap_cons, run_append, List.map_cons, run_twice, shape]
    rw [List.length_append, List.length_singleton] at onward
    refine ⟨onward.1, onward.2.trans ?_⟩
    cases report : (host.process annotator state path).1 with
    | none => simp [processAll, report, Progress.report?]
    | some found => simp [processAll, report, Progress.report?]

end Work

end Runs

section Texts

/-- Why an edit is refused. -/
def refusal? (host : Host σ) (state : σ) (doc : Document) (operations : List Operation) : Option Failure :=
  match host.edit state doc operations with
  | .ok _ => none
  | .error failure => some failure

/-- Two states offer the same document at a path, where `text` is the text that a state holds there. -/
structure Alike (host : Host σ) (text : σ → Path → Option Text) (first second : σ) (path : Path) : Prop where
  read : host.read first path = host.read second path
  refusal : ∀ (found : Text) (operations : List Operation),
    host.refusal? first { path, text := found } operations = host.refusal? second { path, text := found } operations
  text : text first path = text second path

/-- A host that keeps the texts of different paths apart: an edit that it accepts puts the edited text at the path of
the document, and what it offers at other paths stays. -/
structure KeepsTexts (host : Host σ) (text : σ → Path → Option Text) : Prop where
  text_of_same : ∀ {state : σ} {first second : Path}, first.same second = true → text state first = text state second
  edited : ∀ {state next : σ} {doc : Document} {operations : List Operation}, host.persists state = true →
    host.edit state doc operations = .ok next → text next doc.path = some (doc.edited operations)
  untouched : ∀ {state next : σ} {doc : Document} {operations : List Operation}, host.persists state = true →
    host.edit state doc operations = .ok next → ∀ path, path.same doc.path = false → Alike host text next state path
  persists : ∀ {state next : σ} {doc : Document} {operations : List Operation}, host.persists state = true →
    host.edit state doc operations = .ok next → host.persists next = true

variable {host : Host σ} {text : σ → Path → Option Text} {annotator : Annotator}

theorem Alike.refl (host : Host σ) (text : σ → Path → Option Text) (state : σ) (path : Path) :
    Alike host text state state path :=
  ⟨rfl, fun _ _ => rfl, rfl⟩

theorem Alike.trans {first second third : σ} {path : Path} (one : Alike host text first second path)
    (two : Alike host text second third path) : Alike host text first third path where
  read := one.read.trans two.read
  refusal := fun found operations => (one.refusal found operations).trans (two.refusal found operations)
  text := one.text.trans two.text

theorem Alike.look {first second : σ} {path : Path} (alike : Alike host text first second path) :
    host.look annotator first path = host.look annotator second path := by
  rw [Host.look, Host.look, alike.read]

/-- The steps of a document keep what the host offers at other paths. -/
theorem advance_frame (keeps : KeepsTexts host text) (annotator : Annotator) {state : σ}
    (persists : host.persists state = true) (path : Path) (progress : Progress) :
    host.persists (host.advance annotator state path progress).2 = true ∧
      ∀ other, other.same path = false →
        Alike host text (host.advance annotator state path progress).2 state other := by
  cases progress with
  | waiting => exact ⟨persists, fun other _ => .refl host text state other⟩
  | finished report => exact ⟨persists, fun other _ => .refl host text state other⟩
  | planned found =>
    simp only [advance, write]
    cases edit : host.edit state { path, text := found } (annotator.plan { path, text := found }).orderedOperations with
    | error failure => exact ⟨persists, fun other _ => .refl host text state other⟩
    | ok next => exact ⟨keeps.persists persists edit, keeps.untouched persists edit⟩

/-- Where a document stands in the midst of a run from some first state: until it is finished the host offers what it
offered first, and then report and text are those of a document regenerated alone. -/
def Stands (host : Host σ) (text : σ → Path → Option Text) (annotator : Annotator) (first state : σ) (path : Path) :
    Progress → Prop
  | .waiting => Alike host text state first path
  | .planned found => Alike host text state first path ∧ host.look annotator first path = .planned found
  | .finished report => report = (host.process annotator first path).1 ∧
      text state path = text (host.process annotator first path).2 path

theorem Stands.of_alike {first state next : σ} {path : Path} {progress : Progress}
    (alike : Alike host text next state path) (stands : Stands host text annotator first state path progress) :
    Stands host text annotator first next path progress := by
  cases progress with
  | waiting => exact alike.trans stands
  | planned found => exact ⟨alike.trans stands.1, stands.2⟩
  | finished report => exact ⟨stands.1, alike.text.trans stands.2⟩

/-- The edits of a document fare alike where the host offers the same at its path. -/
theorem Alike.write (keeps : KeepsTexts host text) (annotator : Annotator) {first second : σ} {path : Path}
    (persists : host.persists first = true) (persistsToo : host.persists second = true)
    (alike : Alike host text first second path) (found : Text) :
    (host.write annotator first path found).1 = (host.write annotator second path found).1 ∧
      text (host.write annotator first path found).2 path = text (host.write annotator second path found).2 path := by
  have refused := alike.refusal found (annotator.plan { path, text := found }).orderedOperations
  unfold refusal? at refused
  unfold Host.write
  dsimp only
  split at refused
  · rename_i next edit
    split at refused
    · rename_i nextToo editToo
      simp only [edit, editToo, true_and]
      exact (keeps.edited persists edit).trans (keeps.edited persistsToo editToo).symm
    · cases refused
  · rename_i failure edit
    split at refused
    · cases refused
    · rename_i failureToo editToo
      cases refused
      simp only [edit, editToo, true_and]
      exact alike.text

/-- A step of a document goes on as it would have gone on from the first state. -/
theorem Stands.advance (keeps : KeepsTexts host text) {first state : σ} {path : Path} {progress : Progress}
    (persistsFirst : host.persists first = true) (persists : host.persists state = true)
    (stands : Stands host text annotator first state path progress) :
    Stands host text annotator first (host.advance annotator state path progress).2 path
      (host.advance annotator state path progress).1 := by
  have twice := advance_twice host annotator first path
  cases progress with
  | waiting =>
    have alike : Alike host text state first path := stands
    simp only [Host.advance, alike.look] at twice ⊢
    cases looked : host.look annotator first path with
    | waiting => exact alike
    | planned found => exact ⟨alike, looked⟩
    | finished report =>
      simp only [looked, Prod.mk.injEq, Progress.finished.injEq] at twice
      exact ⟨twice.1, by rw [← twice.2, alike.text]⟩
  | planned found =>
    obtain ⟨alike, looked⟩ := stands
    have written := alike.write keeps annotator persists persistsFirst found
    simp only [Host.advance, looked, Prod.mk.injEq, Progress.finished.injEq] at twice ⊢
    exact ⟨written.1.trans twice.1, written.2.trans (congrArg (text · path) twice.2)⟩
  | finished report => exact stands

/-- How a document is regenerated depends on what the host offers at its path only. -/
theorem Alike.process (keeps : KeepsTexts host text) (annotator : Annotator) {first second : σ} {path : Path}
    (persists : host.persists first = true) (persistsToo : host.persists second = true)
    (alike : Alike host text first second path) :
    (host.process annotator first path).1 = (host.process annotator second path).1 ∧
      text (host.process annotator first path).2 path = text (host.process annotator second path).2 path := by
  have waiting : Stands host text annotator second first path .waiting := alike
  have looked := waiting.advance keeps persistsToo persists
  have done := looked.advance keeps persistsToo (advance_frame keeps annotator persists path .waiting).1
  rw [advance_twice] at done
  exact done

/-- A state in which each of some documents is as if it had been regenerated alone, and nothing else has changed. -/
structure Settled (host : Host σ) (text : σ → Path → Option Text) (annotator : Annotator) (first : σ)
    (files : List Path) (last : σ) : Prop where
  inside : ∀ path ∈ files, text last path = text (host.process annotator first path).2 path
  outside : ∀ path, (∀ file ∈ files, path.same file = false) → text last path = text first path

theorem same_or_apart (files : List Path) (path : Path) :
    (∃ file ∈ files, path.same file = true) ∨ ∀ file ∈ files, path.same file = false := by
  by_cases found : ∃ file ∈ files, path.same file = true
  · exact .inl found
  · refine .inr fun file member => ?_
    rw [Bool.eq_false_iff]
    exact fun same => found ⟨file, member, same⟩

/-- Two settled states hold the same texts. -/
theorem Settled.unique (keeps : KeepsTexts host text) {first last other : σ} {files : List Path}
    (settled : Settled host text annotator first files last)
    (settledToo : Settled host text annotator first files other) (path : Path) : text other path = text last path := by
  rcases same_or_apart files path with ⟨file, member, same⟩ | apart
  · rw [keeps.text_of_same same, keeps.text_of_same same, settled.inside file member, settledToo.inside file member]
  · rw [settled.outside path apart, settledToo.outside path apart]

end Texts

section Orders

variable {host : Host σ} {text : σ → Path → Option Text} {annotator : Annotator}

/-- Paths of different documents. A document that cannot be read may have several. -/
def Apart (host : Host σ) (state : σ) (files : List Path) : Prop :=
  files.Pairwise fun first second => first.same second = true →
    (host.read state first).isOk = false ∧ (host.read state second).isOk = false

instance (host : Host σ) (state : σ) (files : List Path) : Decidable (Apart host state files) :=
  inferInstanceAs (Decidable (files.Pairwise _))

theorem Apart.other {state : σ} {files : List Path} (apart : Apart host state files) {index other : Nat}
    {path second : Path} (different : index ≠ other) (here : files[index]? = some path)
    (there : files[other]? = some second) (same : second.same path = true) : (host.read state path).isOk = false := by
  obtain ⟨inside, rfl⟩ := List.getElem?_eq_some_iff.mp here
  obtain ⟨insideToo, rfl⟩ := List.getElem?_eq_some_iff.mp there
  rcases Nat.lt_or_gt_of_ne different with below | above
  · exact (List.pairwise_iff_getElem.mp apart index other inside insideToo below ((Path.same_comm _ _).trans same)).1
  · exact (List.pairwise_iff_getElem.mp apart other index insideToo inside above same).2

/-- The steps of a document that could not be read in the first state change nothing: none of them is a write. -/
theorem Stands.advance_of_unread {first state : σ} {path : Path} {progress : Progress}
    (stands : Stands host text annotator first state path progress) (unread : (host.read first path).isOk = false) :
    (host.advance annotator state path progress).2 = state := by
  cases progress with
  | waiting => rfl
  | finished report => rfl
  | planned found =>
    have looked := stands.2
    rw [look] at looked
    cases read : host.read first path with
    | error failure => simp [read] at looked
    | ok text => simp [read, Except.isOk, Except.toBool] at unread

namespace Work

/-- What holds in the midst of a run from some first state. -/
structure Sound (host : Host σ) (text : σ → Path → Option Text) (annotator : Annotator) (first : σ)
    (files : List Path) (work : Work σ) : Prop where
  paths : work.documents.map Prod.fst = files
  persists : host.persists work.state = true
  stands : ∀ {index : Nat} {path : Path} {progress : Progress}, work.documents[index]? = some (path, progress) →
    Stands host text annotator first work.state path progress
  others : ∀ path, (∀ file ∈ files, path.same file = false) → text work.state path = text first path

theorem Sound.start {first : σ} (files : List Path) (persists : host.persists first = true) :
    Sound host text annotator first files (start first files) where
  paths := by simp [Work.start, Function.comp_def]
  persists := persists
  stands := by
    intro index path progress here
    rw [Work.start, List.getElem?_map] at here
    obtain ⟨file, _, same⟩ := Option.map_eq_some_iff.mp here
    cases same
    exact Alike.refl host text first path
  others := fun _ _ => rfl

theorem Sound.step (keeps : KeepsTexts host text) {first : σ} {files : List Path} {work : Work σ}
    (apart : Apart host first files) (persistsFirst : host.persists first = true)
    (sound : Sound host text annotator first files work) (index : Nat) :
    Sound host text annotator first files (work.step host annotator index) := by
  cases here : work.documents[index]? with
  | none =>
    have same : work.step host annotator index = work := by simp only [Work.step, here]
    rw [same]
    exact sound
  | some document =>
    obtain ⟨path, progress⟩ := document
    have file : files[index]? = some path := by
      rw [← sound.paths, List.getElem?_map, here]
      rfl
    have ⟨persists, untouched⟩ := advance_frame keeps annotator sound.persists path progress
    -- the document at the index goes on by itself, and all others look at a state that is alike for them: their paths
    -- are different, or the document cannot be read and its step leaves the state as it is
    rw [step_eq here]
    refine ⟨?_, persists, ?_, ?_⟩
    · rw [List.map_set, sound.paths]
      obtain ⟨inside, rfl⟩ := List.getElem?_eq_some_iff.mp file
      exact List.set_getElem_self inside
    · intro other second later there
      rw [List.getElem?_set] at there
      by_cases same : index = other
      · rw [if_pos same] at there
        split at there
        · cases there
          exact (sound.stands here).advance keeps persistsFirst sound.persists
        · cases there
      · rw [if_neg same] at there
        have file' : files[other]? = some second := by
          rw [← sound.paths, List.getElem?_map, there]
          rfl
        by_cases again : second.same path = true
        · have unread := apart.other same file file' again
          rw [(sound.stands here).advance_of_unread unread]
          exact sound.stands there
        · exact (sound.stands there).of_alike (untouched second (Bool.eq_false_iff.mpr again))
    · intro other outside
      rw [← sound.others other outside]
      exact (untouched other (outside path (List.mem_of_getElem? file))).text

theorem Sound.run (keeps : KeepsTexts host text) {first : σ} {files : List Path} {work : Work σ}
    (apart : Apart host first files) (persistsFirst : host.persists first = true)
    (sound : Sound host text annotator first files work) (schedule : List Nat) :
    Sound host text annotator first files (run host annotator schedule work) := by
  induction schedule generalizing work with
  | nil => exact sound
  | cons turn rest ih => exact ih (sound.step keeps apart persistsFirst turn)

/-- Every turn of a document takes one of the steps that it still needs. -/
theorem left_run_le (host : Host σ) (annotator : Annotator) (schedule : List Nat) {work : Work σ} {index : Nat}
    {path : Path} {progress : Progress} (here : work.documents[index]? = some (path, progress)) :
    ∃ later, (run host annotator schedule work).documents[index]? = some (path, later) ∧
      later.left ≤ progress.left - schedule.count index := by
  induction schedule generalizing work progress with
  | nil => exact ⟨progress, here, Nat.le_refl _⟩
  | cons turn rest ih =>
    by_cases mine : turn = index
    · subst mine
      have stepped : (work.step host annotator turn).documents[turn]? =
          some (path, (host.advance annotator work.state path progress).1) := by
        have inside : turn < work.documents.length := (List.getElem?_eq_some_iff.mp here).1
        rw [step_eq here]
        simp [inside]
      obtain ⟨later, there, bound⟩ := ih stepped
      have less := left_advance_le host annotator work.state path progress
      refine ⟨later, there, ?_⟩
      rw [List.count_cons_self]
      omega
    · have stepped : (work.step host annotator turn).documents[index]? = some (path, progress) := by
        rw [← here]
        unfold step
        split
        · exact List.getElem?_set_ne mine
        · rfl
      obtain ⟨later, there, bound⟩ := ih stepped
      exact ⟨later, there, by rwa [List.count_cons_of_ne mine]⟩

/-- Behind a schedule that completes, every document is as if it had been regenerated alone. -/
theorem run_complete (keeps : KeepsTexts host text) (annotator : Annotator) {first : σ} {files : List Path}
    (apart : Apart host first files) (persists : host.persists first = true) {schedule : List Nat}
    (completes : Completes schedule files.length) :
    let work := run host annotator schedule (start first files)
    work.reports = files.filterMap (fun path => (host.process annotator first path).1) ∧
      Settled host text annotator first files work.state := by
  intro work
  have sound : Sound host text annotator first files work := (Sound.start files persists).run keeps apart persists _
  have finished : ∀ {index : Nat} {path : Path}, files[index]? = some path →
      ∃ report, work.documents[index]? = some (path, .finished report) := by
    intro index path file
    have waiting : (start first files).documents[index]? = some (path, .waiting) := by simp [start, file]
    obtain ⟨later, there, bound⟩ := left_run_le host annotator schedule waiting
    have turns := completes index (List.getElem?_eq_some_iff.mp file).1
    cases later with
    | finished report => exact ⟨report, there⟩
    | waiting => simp only [Progress.left] at bound; omega
    | planned found => simp only [Progress.left] at bound; omega
  have documents : work.documents =
      files.map fun path => (path, .finished (host.process annotator first path).1) := by
    apply List.ext_getElem?
    intro index
    rw [List.getElem?_map]
    cases file : files[index]? with
    | none =>
      have paths := congrArg (·[index]?) sound.paths
      simpa [file] using paths
    | some path =>
      obtain ⟨report, there⟩ := finished file
      rw [there, (sound.stands there).1]
      rfl
  refine ⟨?_, ?_, sound.others⟩
  · rw [reports, documents, List.filterMap_map]
    rfl
  · intro path member
    obtain ⟨index, file⟩ := List.mem_iff_getElem?.mp member
    obtain ⟨report, there⟩ := finished file
    exact (sound.stands there).2

end Work

theorem inOrder_completes (count : Nat) : Completes (inOrder count) count := by
  intro index inside
  have pair : [index, index].Sublist (inOrder count) :=
    List.sublist_flatten_of_mem (List.mem_map.mpr ⟨index, List.mem_range.mpr inside, rfl⟩)
  have counted := pair.count_le index
  simpa using counted

/-- Regeneration takes one document after the other. -/
theorem regenerate_eq_regenerateBy {state : σ} {files : List Path} (found : host.findFiles state = .ok files) :
    host.regenerate state = host.regenerateBy (inOrder files.length) state := by
  have ordered := Work.run_inOrder host (Annotator.ofBaseUrl (host.baseUrl state)) files state []
  rw [List.length_nil, ← List.range_eq_range', List.nil_append] at ordered
  rw [regenerate, regenerateBy, found]
  simp only [inOrder, Work.start, ordered.1, ordered.2]
  rfl

/-- The summary of documents that are regenerated each on its own. -/
def summaryAlone (host : Host σ) (state : σ) (files : List Path) : Summary where
  baseUrl := host.baseUrl state
  dryRun := !host.persists state
  documents := files.filterMap fun path => (host.process (Annotator.ofBaseUrl (host.baseUrl state)) state path).1

theorem regenerateBy_complete (keeps : KeepsTexts host text) {state : σ} {files : List Path}
    (found : host.findFiles state = .ok files) (apart : Apart host state files) (persists : host.persists state = true)
    {schedule : List Nat} (completes : Completes schedule files.length) :
    ∃ last, host.regenerateBy schedule state = .ok (host.summaryAlone state files, last) ∧
      Settled host text (Annotator.ofBaseUrl (host.baseUrl state)) state files last := by
  have complete := Work.run_complete keeps (Annotator.ofBaseUrl (host.baseUrl state)) apart persists completes
  refine ⟨_, ?_, complete.2⟩
  rw [regenerateBy, found]
  simp only [complete.1]
  rfl

theorem regenerate_complete (keeps : KeepsTexts host text) {state : σ} {files : List Path}
    (found : host.findFiles state = .ok files) (apart : Apart host state files)
    (persists : host.persists state = true) :
    ∃ last, host.regenerate state = .ok (host.summaryAlone state files, last) ∧
      Settled host text (Annotator.ofBaseUrl (host.baseUrl state)) state files last := by
  rw [regenerate_eq_regenerateBy found]
  exact regenerateBy_complete keeps found apart persists (inOrder_completes files.length)

end Orders

end Host

end RouteComments
