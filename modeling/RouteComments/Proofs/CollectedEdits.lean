import Mathlib.Data.List.Induction
import Mathlib.Data.List.Nodup
import RouteComments.Editor.Session.Basic
import RouteComments.Proofs.FileUris
import RouteComments.Proofs.IndependentDocuments
import RouteComments.Proofs.WrittenFiles

set_option autoImplicit false

namespace RouteComments

open Text

namespace Keyed

variable {α β : Type} [BEq α]

theorem ofList_concat (entries : List (α × β)) (key : α) (value : β) :
    ofList (entries ++ [(key, value)]) = put key value (ofList entries) := by
  simp [ofList]

theorem mem_put {key : α} {value : β} {entries : List (α × β)} {entry : α × β}
    (member : entry ∈ put key value entries) :
    entry = (key, value) ∨ entry ∈ entries := by
  induction entries with
  | nil => exact .inl (List.mem_singleton.mp member)
  | cons first rest ih =>
    obtain ⟨other, found⟩ := first
    rw [put] at member
    split at member
    · rcases List.mem_cons.mp member with same | later
      · exact .inl same
      · exact .inr (List.mem_cons_of_mem _ later)
    · rcases List.mem_cons.mp member with rfl | later
      · exact .inr List.mem_cons_self
      · exact (ih later).imp_right (List.mem_cons_of_mem _)

theorem mem_of_mem_ofList {entries : List (α × β)} {entry : α × β} (member : entry ∈ ofList entries) :
    entry ∈ entries := by
  induction entries using List.reverseRecOn with
  | nil => exact member
  | append_singleton rest last ih =>
    rw [ofList_concat] at member
    rcases mem_put member with rfl | earlier
    · simp
    · exact List.mem_append_left _ (ih earlier)

variable [LawfulBEq α]

theorem mem_of_lookup {key : α} {value : β} {entries : List (α × β)} (found : entries.lookup key = some value) :
    (key, value) ∈ entries := by
  obtain ⟨front, back, shape, -⟩ := List.lookup_eq_some_iff.mp found
  rw [shape]
  exact List.mem_append_right _ List.mem_cons_self

/-- Of two values under one key the last stays. -/
theorem lookup_ofList (key : α) (entries : List (α × β)) :
    (ofList entries).lookup key = entries.reverse.lookup key := by
  induction entries using List.reverseRecOn with
  | nil => rfl
  | append_singleton rest last ih =>
    obtain ⟨other, value⟩ := last
    rw [ofList_concat, List.reverse_append, List.reverse_singleton, List.singleton_append, List.lookup_cons]
    by_cases same : key = other
    · rw [same, lookup_put_self]
      simp
    · rw [lookup_put_of_ne value _ same, ih, beq_eq_false_iff_ne.mpr same]

theorem exists_mem_ofList {key : α} {value : β} {entries : List (α × β)} (member : (key, value) ∈ entries) :
    ∃ last, (key, last) ∈ ofList entries := by
  cases looked : (ofList entries).lookup key with
  | some last => exact ⟨last, mem_of_lookup looked⟩
  | none =>
    rw [lookup_ofList, List.lookup_eq_none_iff] at looked
    simpa using looked _ (List.mem_reverse.mpr member)

/-- The value of a key to which all items that have it give the same. -/
theorem lookup_ofList_filterMap {γ : Type} {f : γ → Option (α × β)} {items : List γ} {item : γ} {key : α}
    {value : Option β} (listed : item ∈ items) (here : f item = value.map fun found => (key, found))
    (others : ∀ other ∈ items, ∀ entry, f other = some entry → entry.1 = key → value = some entry.2) :
    (ofList (items.filterMap f)).lookup key = value := by
  cases looked : (ofList (items.filterMap f)).lookup key with
  | some found =>
    obtain ⟨other, listedToo, same⟩ := List.mem_filterMap.mp (mem_of_mem_ofList (mem_of_lookup looked))
    exact (others other listedToo _ same rfl).symm
  | none =>
    rw [lookup_ofList, List.lookup_eq_none_iff] at looked
    cases value with
    | none => rfl
    | some found =>
      have member : (key, found) ∈ (items.filterMap f).reverse :=
        List.mem_reverse.mpr (List.mem_filterMap.mpr ⟨item, listed, here⟩)
      simpa using looked _ member

theorem nodup_put {key : α} {value : β} {entries : List (α × β)} (distinct : (entries.map Prod.fst).Nodup) :
    ((put key value entries).map Prod.fst).Nodup := by
  induction entries with
  | nil => simp
  | cons first rest ih =>
    obtain ⟨other, found⟩ := first
    obtain ⟨fresh, later⟩ := List.nodup_cons.mp distinct
    rw [put]
    split
    · rename_i same
      rw [beq_iff_eq] at same
      exact same ▸ distinct
    · rename_i different
      refine List.nodup_cons.mpr ⟨?_, ih later⟩
      intro listed
      obtain ⟨entry, member, name⟩ := List.mem_map.mp listed
      rcases mem_put member with rfl | earlier
      · exact different (by simpa using name.symm)
      · exact fresh (List.mem_map.mpr ⟨entry, earlier, name⟩)

theorem nodup_ofList (entries : List (α × β)) : ((ofList entries).map Prod.fst).Nodup := by
  induction entries using List.reverseRecOn with
  | nil => exact List.nodup_nil
  | append_singleton rest last ih =>
    rw [ofList_concat]
    exact nodup_put ih

theorem lookup_eq_some_of_mem {entries : List (α × β)} (distinct : (entries.map Prod.fst).Nodup) {key : α} {value : β}
    (member : (key, value) ∈ entries) : entries.lookup key = some value := by
  induction entries with
  | nil => cases member
  | cons first rest ih =>
    obtain ⟨other, found⟩ := first
    obtain ⟨fresh, later⟩ := List.nodup_cons.mp distinct
    rw [List.lookup_cons]
    rcases List.mem_cons.mp member with same | behind
    · cases same
      simp
    · have different : key ≠ other := fun same => fresh (List.mem_map.mpr ⟨_, behind, same⟩)
      rw [beq_eq_false_iff_ne.mpr different]
      exact ih later behind

end Keyed

namespace PathMap

variable {β γ : Type}

theorem ofList_concat (entries : List (Path × β)) (path : Path) (value : β) :
    ofList (entries ++ [(path, value)]) = put path value (ofList entries) := by
  simp [ofList]

/-- Of two values for one path the last stays. -/
theorem get?_ofList (path : Path) (entries : List (Path × β)) :
    (ofList entries).get? path = get? path entries.reverse := by
  induction entries using List.reverseRecOn with
  | nil => rfl
  | append_singleton rest last ih =>
    obtain ⟨other, value⟩ := last
    rw [ofList_concat, List.reverse_append, List.reverse_singleton, List.singleton_append, get?]
    cases same : path.same other with
    | true => rw [get?_put_of_same value _ same]; simp
    | false => rw [get?_put_of_not_same value _ same, ih]; simp

theorem get?_map (path : Path) (f : β → γ) (map : PathMap β) :
    get? path (map.map fun (other, value) => (other, f value)) = (map.get? path).map f := by
  induction map with
  | nil => rfl
  | cons entry rest ih =>
    obtain ⟨other, value⟩ := entry
    simp only [List.map_cons, get?, ih]
    split
    · rfl
    · rfl

theorem mem_of_get? {path : Path} {map : PathMap β} {value : β} (found : map.get? path = some value) :
    ∃ other, (other, value) ∈ map ∧ path.same other = true := by
  induction map with
  | nil => cases found
  | cons entry rest ih =>
    obtain ⟨other, here⟩ := entry
    rw [get?] at found
    split at found
    · rename_i same
      cases found
      exact ⟨other, List.mem_cons_self, same⟩
    · obtain ⟨name, member, same⟩ := ih found
      exact ⟨name, List.mem_cons_of_mem _ member, same⟩

theorem mem_paths_put {path other : Path} {value : β} {map : PathMap β} (member : other ∈ (put path value map).paths) :
    other = path ∨ other ∈ map.paths := by
  induction map with
  | nil => exact .inl (List.mem_singleton.mp member)
  | cons entry rest ih =>
    obtain ⟨name, found⟩ := entry
    rw [put] at member
    split at member
    · exact .inr member
    · rcases List.mem_cons.mp member with rfl | later
      · exact .inr List.mem_cons_self
      · exact (ih later).imp_right (List.mem_cons_of_mem _)

theorem mem_paths_ofList {path : Path} {entries : List (Path × β)} (member : path ∈ (ofList entries).paths) :
    path ∈ entries.map Prod.fst := by
  induction entries using List.reverseRecOn with
  | nil => exact member
  | append_singleton rest last ih =>
    rw [ofList_concat] at member
    rcases mem_paths_put member with rfl | earlier
    · simp
    · rw [List.map_append]
      exact List.mem_append_left _ (ih earlier)

end PathMap

namespace Entry

variable {config : Config} {file : Path}

mutual

theorem rooted_sources {path : Path} (rooted : path.Rooted) (name : Text) (entry : Entry)
    (listed : file ∈ sources config path name entry) : file.Rooted := by
  cases entry with
  | file content =>
    rw [sources] at listed
    split at listed
    · exact List.mem_singleton.mp listed ▸ rooted
    · cases listed
  | directory entries =>
    rw [sources] at listed
    split at listed
    · cases listed
    · exact rooted_sourcesAmong rooted entries listed

/-- A search from an absolute path finds absolute paths. -/
theorem rooted_sourcesAmong {path : Path} (rooted : path.Rooted) (entries : List (Text × Entry))
    (listed : file ∈ sourcesAmong config path entries) : file.Rooted := by
  match entries with
  | [] => cases listed
  | (name, entry) :: rest =>
    rw [sourcesAmong] at listed
    rcases List.mem_append.mp listed with inFirst | inLater
    · exact rooted_sources (rooted.join name) name entry inFirst
    · exact rooted_sourcesAmong rooted rest inLater

end

end Entry

namespace Editor

namespace Store

variable {store : Store} {file : Path}

/-- The open document that stands for a file: the last one that names it. -/
def latest? (store : Store) (file : Path) : Option OpenDocument :=
  PathMap.get? file store.files.reverse

theorem mem_files {path : Path} {document : OpenDocument} :
    (path, document) ∈ store.files ↔ ∃ uri, (uri, document) ∈ store ∧ uri.filePath? = some path := by
  simp only [files, List.mem_filterMap, Option.map_eq_some_iff, Prod.mk.injEq]
  constructor
  · rintro ⟨⟨uri, found⟩, member, name, named, rfl, rfl⟩
    exact ⟨uri, member, named⟩
  · rintro ⟨uri, member, named⟩
    exact ⟨(uri, document), member, path, named, rfl, rfl⟩

theorem latest?_eq_some {document : OpenDocument} (found : store.latest? file = some document) :
    ∃ uri path, (uri, document) ∈ store ∧ uri.filePath? = some path ∧ path.same file = true := by
  obtain ⟨path, member, same⟩ := PathMap.mem_of_get? found
  obtain ⟨uri, stored, named⟩ := mem_files.mp (List.mem_reverse.mp member)
  exact ⟨uri, path, stored, named, by rw [PathMap.same_iff] at same ⊢; exact same.symm⟩

theorem latest?_eq_none (missing : store.latest? file = none) {uri : Uri} {document : OpenDocument} {path : Path}
    (stored : (uri, document) ∈ store) (named : uri.filePath? = some path) : path.same file = false := by
  cases same : path.same file with
  | false => rfl
  | true =>
    have listed : path ∈ PathMap.paths store.files.reverse :=
      List.mem_map.mpr ⟨_, List.mem_reverse.mpr (mem_files.mpr ⟨uri, stored, named⟩), rfl⟩
    have there := PathMap.get?_ne_none_of_mem listed
    rw [PathMap.get?_of_same same] at there
    exact absurd missing there

theorem latest?_of_same {first second : Path} (same : first.same second = true) (store : Store) :
    store.latest? first = store.latest? second :=
  PathMap.get?_of_same same _

/-- The text of a file is that of its last document. -/
theorem get?_buffers (store : Store) (file : Path) :
    store.buffers.get? file = (store.latest? file).map (·.content) := by
  rw [buffers, PathMap.get?_ofList, ← List.map_reverse]
  exact PathMap.get?_map file (·.content) store.files.reverse

theorem lookup_filterMap_ofPath? {uri : Uri} (rooted : file.Rooted) (named : Uri.ofPath? file = some uri)
    {found : List (Path × OpenDocument)} (all : ∀ entry ∈ found, entry.1.Rooted) :
    (found.filterMap fun (path, document) => (Uri.ofPath? path).map fun uri => (uri, document.version)).lookup uri =
      (PathMap.get? file found).map (·.version) := by
  induction found with
  | nil => rfl
  | cons entry rest ih =>
    obtain ⟨path, document⟩ := entry
    have rootedToo : path.Rooted := all (path, document) List.mem_cons_self
    obtain ⟨other, namedToo⟩ := Uri.exists_uri rootedToo
    have later := ih fun entry member => all entry (List.mem_cons_of_mem _ member)
    have one := Uri.ofPath?_eq_iff rooted rootedToo
    rw [named, namedToo, Option.some.injEq] at one
    simp only [List.filterMap_cons, namedToo, Option.map_some, List.lookup_cons, PathMap.get?]
    by_cases same : uri = other
    · rw [if_pos (one.mp same), beq_iff_eq.mpr same]
      rfl
    · rw [if_neg (fun together => same (one.mpr together)), beq_eq_false_iff_ne.mpr same]
      exact later

/-- The version of a file is that of its last document. -/
theorem lookup_versions {uri : Uri} (store : Store) (rooted : file.Rooted) (named : Uri.ofPath? file = some uri) :
    store.versions.lookup uri = (store.latest? file).map (·.version) := by
  rw [versions, Keyed.lookup_ofList, ← List.filterMap_reverse]
  refine lookup_filterMap_ofPath? rooted named ?_
  rintro ⟨path, document⟩ member
  obtain ⟨uri, -, named⟩ := mem_files.mp (List.mem_reverse.mp member)
  exact Uri.rooted_filePath? named

end Store

/-- The edits for a controller whose comments are out of date. -/
def staleEdits? (annotator : Annotator) (doc : Document) : Option (List TextEdit) :=
  if Mapping.isController doc.text && annotator.annotate doc != doc.text then
    some (TextEdit.ofOperations doc (annotator.plan doc).orderedOperations)
  else none

/-- Edits depend on the text of a document and not on its path. -/
theorem staleEdits?_path (annotator : Annotator) (first second : Path) (text : Text) :
    staleEdits? annotator { path := first, text } = staleEdits? annotator { path := second, text } := rfl

namespace Snapshot

variable (snapshot : Snapshot) (tree : FileTree) (annotator : Annotator)

/-- What a file adds to the edits. -/
def contribution? (path : Path) : Option (Uri × List TextEdit) :=
  match snapshot.readDocument tree path with
  | .ok text => (Uri.ofPath? path).bind fun uri => (staleEdits? annotator { path, text }).map fun edits => (uri, edits)
  | .error _ => none

variable {snapshot tree annotator} in
theorem contribution?_eq_some {path : Path} {uri : Uri} {edits : List TextEdit} :
    snapshot.contribution? tree annotator path = some (uri, edits) ↔
      ∃ text, snapshot.readDocument tree path = .ok text ∧ Uri.ofPath? path = some uri ∧
        staleEdits? annotator { path, text } = some edits := by
  rw [contribution?]
  cases snapshot.readDocument tree path with
  | error failure => simp
  | ok text => simp [Option.bind_eq_some_iff]

/-- Puts what a file adds to the edits of others. -/
def extend (edits : Edits) (found : Option (Uri × List TextEdit)) : Edits :=
  match found with
  | some (uri, more) => Keyed.put uri more edits
  | none => edits

theorem process_collects (edits : Edits) (path : Path) :
    ((snapshot.host tree).process annotator edits path).2 =
      extend edits (snapshot.contribution? tree annotator path) := by
  have read : (snapshot.host tree).read edits path = snapshot.readDocument tree path := rfl
  simp only [Host.process, contribution?, read]
  cases snapshot.readDocument tree path with
  | error failure => rfl
  | ok text =>
    have edit : (snapshot.host tree).edit = collect := rfl
    by_cases controller : Mapping.isController text = true
    · by_cases current : (annotator.plan { path, text }).apply { path, text } = text
      · have none : staleEdits? annotator { path, text } = none := by
          simp [staleEdits?, Annotator.annotate, current]
        simp [controller, current, none, extend]
      · have stale : staleEdits? annotator { path, text } =
            some (TextEdit.ofOperations { path, text } (annotator.plan { path, text }).orderedOperations) := by
          simp [staleEdits?, Annotator.annotate, controller, current]
        cases named : Uri.ofPath? path with
        | none => simp [controller, current, edit, collect, Plan.areOrdered_orderedOperations, named, extend]
        | some uri => simp [controller, current, edit, collect, Plan.areOrdered_orderedOperations, named, stale, extend]
    · have none : staleEdits? annotator { path, text } = none := by simp [staleEdits?, controller]
      simp [controller, none, extend]

/-- Files add their edits one after another, and none depends on what the others add. -/
theorem processAll_collects (edits : Edits) (files : List Path) :
    ((snapshot.host tree).processAll annotator edits files).2 =
      (files.filterMap (snapshot.contribution? tree annotator)).foldl (fun map (uri, more) => Keyed.put uri more map)
        edits := by
  induction files generalizing edits with
  | nil => rfl
  | cons path rest ih =>
    simp only [Host.processAll, ih, process_collects]
    cases found : snapshot.contribution? tree annotator path with
    | none => simp [found, extend]
    | some entry => simp [found, extend]

theorem regenerate_collects {files : List Path} (found : snapshot.findFiles tree = .ok files) :
    ∃ summary, (snapshot.host tree).regenerate [] = .ok (summary, Keyed.ofList (files.filterMap
      (snapshot.contribution? tree (Annotator.ofBaseUrl ((snapshot.host tree).baseUrl []))))) := by
  have files : (snapshot.host tree).findFiles [] = snapshot.findFiles tree := rfl
  simp only [Host.regenerate, files, found]
  exact ⟨_, by rw [processAll_collects]; rfl⟩

end Snapshot

def Notice.asksForEdit (notice : Notice) : Bool :=
  notice.method == "workspace/applyEdit"

namespace Session

variable {session : Session} {tree : FileTree}

/-- The edits that the command to regenerate the workspace collects. -/
def collected (session : Session) (tree : FileTree) : Edits :=
  match ((session.workspace tree).host tree).regenerate [] with
  | .ok (_, edits) => edits
  | .error _ => []

/-- What the command to regenerate the workspace asks the editor to apply. -/
def requested (session : Session) (tree : FileTree) (answer : EditAnswer) : List Notice :=
  (session.command tree answer regenerateCommand).notices.filter Notice.asksForEdit

theorem filter_warnings (summary : Summary) : (warnings summary).filter Notice.asksForEdit = [] := by
  rw [List.filter_eq_nil_iff]
  intro notice listed
  obtain ⟨report, -, found⟩ := List.mem_filterMap.mp listed
  obtain ⟨error, -, rfl⟩ := Option.map_eq_some_iff.mp found
  simp [Notice.asksForEdit, Notice.logMessage]

/-- The command asks for all edits at once, and for nothing if there are none. -/
theorem requested_eq (session : Session) (tree : FileTree) (answer : EditAnswer) :
    session.requested tree answer =
      if (session.collected tree).isEmpty then []
      else [Notice.applyEdit (session.workspaceEdit (session.collected tree))] := by
  have asks (edit : WorkspaceEdit) : (Notice.applyEdit edit).asksForEdit = true := rfl
  have shows (severity : Severity) (message : Text) : (Notice.showMessage severity message).asksForEdit = false := rfl
  rw [requested, command, if_pos rfl, regenerate]
  cases outcome : ((session.workspace tree).host tree).regenerate [] with
  | error failure =>
    have none : session.collected tree = [] := by rw [collected, outcome]
    simp [none, shows]
  | ok result =>
    obtain ⟨summary, edits⟩ := result
    have all : session.collected tree = edits := by rw [collected, outcome]
    rw [all]
    by_cases empty : edits.isEmpty = true
    · simp [empty, filter_warnings, closing, shows]
    · cases refusal? answer with
      | none => simp [empty, filter_warnings, closing, shows, asks]
      | some reason => simp [empty, filter_warnings, shows, asks]

/-- The base URL for a place: that of the settings, of the configuration or of the local server found from there. -/
def baseUrlAt (session : Session) (tree : FileTree) (scope : Option Path) : Text :=
  ((Snapshot.ofScope tree scope session.settings.baseUrl []).host tree).baseUrl []

def annotatorAt (session : Session) (tree : FileTree) (scope : Option Path) : Annotator :=
  Annotator.ofBaseUrl (session.baseUrlAt tree scope)

theorem collected_eq {files : List Path} (found : (session.workspace tree).findFiles tree = .ok files) :
    session.collected tree = Keyed.ofList (files.filterMap ((session.workspace tree).contribution? tree
      (session.annotatorAt tree session.root))) := by
  obtain ⟨summary, regenerated⟩ := (session.workspace tree).regenerate_collects tree found
  rw [collected, regenerated]
  rfl

theorem collected_of_error {failure : Failure} (found : (session.workspace tree).findFiles tree = .error failure) :
    session.collected tree = [] := by
  have none : ((session.workspace tree).host tree).findFiles [] = .error failure := found
  rw [collected, Host.regenerate, none]

/-- All files that a workspace finds have absolute paths. -/
theorem rooted_of_found (placed : ∀ root, session.root = some root → root.Rooted) {files : List Path} {file : Path}
    (found : (session.workspace tree).findFiles tree = .ok files) (listed : file ∈ files) : file.Rooted := by
  have scope : (session.workspace tree).scope = session.root := rfl
  have buffers : (session.workspace tree).buffers = session.documents.buffers := rfl
  simp only [Snapshot.findFiles, scope, buffers] at found
  cases root : session.root with
  | none =>
    simp only [root, Except.ok.injEq] at found
    rw [← found, List.mem_mergeSort] at listed
    have opened := PathMap.mem_paths_ofList (List.mem_filter.mp listed).1
    rw [List.map_map] at opened
    obtain ⟨⟨path, document⟩, member, rfl⟩ := List.mem_map.mp opened
    obtain ⟨uri, -, named⟩ := Store.mem_files.mp member
    exact Uri.rooted_filePath? named
  | some start =>
    simp only [root, FileTree.walkSources] at found
    have rooted := placed start root
    split at found
    · cases found
    · cases found
      exact List.mem_singleton.mp listed ▸ rooted
    · rename_i entries here
      cases found
      exact Entry.rooted_sourcesAmong rooted entries (List.mem_mergeSort.mp listed)

end Session

end Editor

end RouteComments
