import RouteComments.Proofs.OpenDocuments

set_option autoImplicit false

namespace RouteComments.Editor

open Text Json

namespace WorkspaceEdit

/-- The documents of a versioned edit, in the order in which they are sent. -/
def sortedDocuments (edits : Edits) (versions : List (Uri × Int)) : List (Uri × Option Int × List TextEdit) :=
  (edits.map fun (uri, found) => (uri, versions.lookup uri, found)).mergeSort fun a b => precedes a.1.text b.1.text

theorem ofEdits_some (edits : Edits) (versions : List (Uri × Int)) :
    ofEdits edits (some versions) = .versioned (sortedDocuments edits versions) := rfl

theorem mem_sortedDocuments {edits : Edits} {versions : List (Uri × Int)} {uri : Uri} {version : Option Int}
    {found : List TextEdit} :
    (uri, version, found) ∈ sortedDocuments edits versions ↔ (uri, found) ∈ edits ∧ version = versions.lookup uri := by
  rw [sortedDocuments, List.mem_mergeSort, List.mem_map]
  constructor
  · rintro ⟨⟨other, more⟩, member, same⟩
    cases same
    exact ⟨member, rfl⟩
  · rintro ⟨member, rfl⟩
    exact ⟨(uri, found), member, rfl⟩

theorem isEmpty_sortedDocuments (edits : Edits) (versions : List (Uri × Int)) :
    (sortedDocuments edits versions).isEmpty = edits.isEmpty := by
  have length : (sortedDocuments edits versions).length = edits.length := by
    rw [sortedDocuments, List.length_mergeSort, List.length_map]
  rw [Bool.eq_iff_iff, List.isEmpty_iff_length_eq_zero, List.isEmpty_iff_length_eq_zero, length]

/-- Documents are sorted by URI, and no URI comes twice. -/
def Ascending (documents : List (Uri × Option Int × List TextEdit)) : Prop :=
  documents.Pairwise fun first second => precedes first.1.text second.1.text = true ∧ first.1.text ≠ second.1.text

theorem ascending_sortedDocuments {edits : Edits} (versions : List (Uri × Int))
    (distinct : (edits.map fun entry => entry.1.text).Nodup) : Ascending (sortedDocuments edits versions) := by
  refine List.Pairwise.and ?_ ?_
  · apply List.pairwise_mergeSort
    · exact fun first second third => precedes_trans
    · exact fun first second => precedes_total first.1.text second.1.text
  · refine (List.mergeSort_perm _ _).symm.pairwise ?_ fun different => Ne.symm different
    rw [List.pairwise_map]
    exact List.pairwise_map.mp distinct

theorem Ascending.eq_of_uri_eq {documents : List (Uri × Option Int × List TextEdit)} (ascending : Ascending documents)
    {first second : Uri × Option Int × List TextEdit} (listed : first ∈ documents) (listedToo : second ∈ documents)
    (same : first.1 = second.1) : first = second := by
  have apart : (documents.map fun entry => entry.1.text).Nodup := List.pairwise_map.mpr (ascending.imp And.right)
  exact List.inj_on_of_nodup_map apart listed listedToo (congrArg Uri.text same)

end WorkspaceEdit

namespace Session

variable {session : Session} {tree : FileTree}

/-- The edits of the plan for a text of a file, with the base URL of the workspace. -/
def plannedEdits (session : Session) (tree : FileTree) (file : Path) (text : Text) : List TextEdit :=
  let doc : Document := { path := file, text }
  TextEdit.ofOperations doc ((session.annotatorAt tree session.root).plan doc).orderedOperations

/-- An entry of a versioned edit whose edits and version come from one document that is open for a file, or from the
file itself if no document is open for it. -/
inductive Backs (session : Session) (tree : FileTree) : Uri × Option Int × List TextEdit → Prop where
  | opened {file path : Path} {fileUri uri : Uri} {document : OpenDocument} (named : Uri.ofPath? file = some fileUri)
    (stored : session.documents.lookup uri = some document) (placed : uri.filePath? = some path)
    (same : path.same file = true) :
    Backs session tree (fileUri, some document.version, session.plannedEdits tree file document.content)
  | onDisk {file : Path} {fileUri : Uri} {text : Text} (named : Uri.ofPath? file = some fileUri)
    (shut : ∀ uri document path, session.documents.lookup uri = some document → uri.filePath? = some path →
      path.same file = false)
    (read : tree.read file = .ok text) : Backs session tree (fileUri, none, session.plannedEdits tree file text)

/-- The session with its documents in another order. -/
def reordered (session : Session) (order : Store) : Session :=
  { session with documents := order }

section Collected

variable {order : Store} {uri : Uri} {found : List TextEdit}

theorem mem_collected (member : (uri, found) ∈ session.collected tree) :
    ∃ files file text, (session.workspace tree).findFiles tree = .ok files ∧ file ∈ files ∧
      (session.workspace tree).readDocument tree file = .ok text ∧ Uri.ofPath? file = some uri ∧
      found = session.plannedEdits tree file text := by
  cases search : (session.workspace tree).findFiles tree with
  | error failure =>
    rw [collected_of_error search] at member
    cases member
  | ok files =>
    rw [collected_eq search] at member
    obtain ⟨file, listed, added⟩ := List.mem_filterMap.mp (Keyed.mem_of_mem_ofList member)
    obtain ⟨text, read, named, stale⟩ := Snapshot.contribution?_eq_some.mp added
    refine ⟨files, file, text, rfl, listed, read, named, ?_⟩
    unfold staleEdits? at stale
    split at stale
    · exact (Option.some.inj stale).symm
    · cases stale

/-- The text that is planned and the version that is sent come from one document. -/
theorem backs_of_mem_collected (placed : ∀ root, session.root = some root → root.Rooted)
    (distinct : (session.documents.map Prod.fst).Nodup) (perm : order.Perm session.documents)
    (member : (uri, found) ∈ (session.reordered order).collected tree) :
    session.Backs tree (uri, order.versions.lookup uri, found) := by
  obtain ⟨files, file, text, search, listed, read, named, rfl⟩ := mem_collected member
  have placedToo : ∀ root, (session.reordered order).root = some root → root.Rooted := placed
  have rooted := rooted_of_found placedToo search listed
  have edits : (session.reordered order).plannedEdits tree file text = session.plannedEdits tree file text := rfl
  have buffers : ((session.reordered order).workspace tree).buffers = order.buffers := rfl
  rw [Store.lookup_versions order rooted named, edits]
  simp only [Snapshot.readDocument, buffers, Store.get?_buffers] at read
  cases latest : order.latest? file with
  | some document =>
    obtain ⟨other, path, kept, namedToo, same⟩ := Store.latest?_eq_some latest
    simp only [latest, Option.map_some, Except.ok.injEq] at read
    subst read
    exact .opened named (Keyed.lookup_eq_some_of_mem distinct (perm.mem_iff.mp kept)) namedToo same
  | none =>
    simp only [latest, Option.map_none] at read
    have text : tree.read file = .ok text := by
      cases onDisk : tree.read file with
      | error fault => simp [onDisk] at read
      | ok content =>
        simp only [onDisk, Except.ok.injEq] at read
        rw [read]
    refine .onDisk named ?_ text
    intro other document path stored namedToo
    exact Store.latest?_eq_none latest (perm.mem_iff.mpr (Keyed.mem_of_lookup stored)) namedToo

/-- No two entries have one URI. -/
theorem nodup_collected (session : Session) (tree : FileTree) :
    ((session.collected tree).map fun entry => entry.1.text).Nodup := by
  have keys : ((session.collected tree).map Prod.fst).Nodup := by
    cases search : (session.workspace tree).findFiles tree with
    | error failure =>
      rw [collected_of_error search]
      exact List.nodup_nil
    | ok files =>
      rw [collected_eq search]
      exact Keyed.nodup_ofList _
  have texts : (session.collected tree).map (fun entry => entry.1.text) =
      ((session.collected tree).map Prod.fst).map Uri.text := by
    rw [List.map_map]
    rfl
  rw [texts]
  refine keys.map_on ?_
  intro first listed second listedToo same
  obtain ⟨⟨uri, found⟩, member, rfl⟩ := List.mem_map.mp listed
  obtain ⟨⟨uriToo, foundToo⟩, memberToo, rfl⟩ := List.mem_map.mp listedToo
  obtain ⟨-, file, -, -, -, -, named, -⟩ := mem_collected member
  obtain ⟨-, fileToo, -, -, -, -, namedToo, -⟩ := mem_collected memberToo
  exact Uri.eq_of_text_eq named namedToo same

/-- The entries are those of the files with stale comments. -/
theorem exists_mem_collected_iff {files : List Path} (search : (session.workspace tree).findFiles tree = .ok files) :
    (∃ found, (uri, found) ∈ session.collected tree) ↔
      ∃ file ∈ files, Uri.ofPath? file = some uri ∧ ∃ text, (session.workspace tree).readDocument tree file = .ok text ∧
        (staleEdits? (session.annotatorAt tree session.root) { path := file, text }).isSome = true := by
  rw [collected_eq search]
  constructor
  · rintro ⟨found, member⟩
    obtain ⟨file, listed, added⟩ := List.mem_filterMap.mp (Keyed.mem_of_mem_ofList member)
    obtain ⟨text, read, named, stale⟩ := Snapshot.contribution?_eq_some.mp added
    exact ⟨file, listed, named, text, read, by rw [stale]; rfl⟩
  · rintro ⟨file, listed, named, text, read, stale⟩
    obtain ⟨found, stale⟩ := Option.isSome_iff_exists.mp stale
    have added := Snapshot.contribution?_eq_some.mpr ⟨text, read, named, stale⟩
    exact Keyed.exists_mem_ofList (List.mem_filterMap.mpr ⟨file, listed, added⟩)

end Collected

/-- A session begins without documents, and its root is the path of a URI. -/
theorem started?_spec {params : Value} {first : Session} (started : Session.start.started? params = some first) :
    first.phase = .ready ∧ first.documents = [] ∧ ∀ root, first.root = some root → root.Rooted := by
  simp only [started?, Option.bind_eq_bind, Option.bind_eq_some_iff, Option.some.injEq] at started
  obtain ⟨checked, -, rfl⟩ := started
  refine ⟨rfl, rfl, ?_⟩
  intro root here
  obtain ⟨uri, -, named⟩ := Option.bind_eq_some_iff.mp here
  exact Uri.rooted_filePath? named

/-- The documents of a versioned edit as they have to be for a session, if the store gives its documents in some
order. -/
structure Versions (session : Session) (tree : FileTree) (order : Store)
    (documents : List (Uri × Option Int × List TextEdit)) : Prop where
  sorted : WorkspaceEdit.Ascending documents
  onePerFile : ∀ first ∈ documents, ∀ second ∈ documents, ∀ file other, Uri.ofPath? file = some first.1 →
    Uri.ofPath? other = some second.1 → file.same other = true → first = second
  backed : ∀ entry ∈ documents, session.Backs tree entry
  complete : ∀ files, ((session.reordered order).workspace tree).findFiles tree = .ok files → ∀ uri,
    (∃ entry ∈ documents, entry.1 = uri) ↔
      ∃ file ∈ files, Uri.ofPath? file = some uri ∧
        ∃ text, ((session.reordered order).workspace tree).readDocument tree file = .ok text ∧
          (staleEdits? (session.annotatorAt tree session.root) { path := file, text }).isSome = true

theorem versions_sortedDocuments {order : Store} (placed : ∀ root, session.root = some root → root.Rooted)
    (distinct : (session.documents.map Prod.fst).Nodup) (perm : order.Perm session.documents) :
    session.Versions tree order
      (WorkspaceEdit.sortedDocuments ((session.reordered order).collected tree) order.versions) where
  sorted := WorkspaceEdit.ascending_sortedDocuments _ (nodup_collected _ _)
  onePerFile := by
    intro first listed second listedToo file other named namedToo same
    have ascending := WorkspaceEdit.ascending_sortedDocuments order.versions
      (nodup_collected (session.reordered order) tree)
    exact ascending.eq_of_uri_eq listed listedToo (Uri.eq_of_same named namedToo same)
  backed := by
    rintro ⟨uri, version, found⟩ listed
    obtain ⟨member, rfl⟩ := WorkspaceEdit.mem_sortedDocuments.mp listed
    exact backs_of_mem_collected placed distinct perm member
  complete := by
    intro files search uri
    refine Iff.trans ?_ (exists_mem_collected_iff search)
    constructor
    · rintro ⟨⟨uri, version, found⟩, listed, rfl⟩
      exact ⟨found, (WorkspaceEdit.mem_sortedDocuments.mp listed).1⟩
    · rintro ⟨found, member⟩
      exact ⟨(uri, _, found), WorkspaceEdit.mem_sortedDocuments.mpr ⟨member, rfl⟩, rfl⟩

theorem requested_of_versioned (versioned : session.versioned = true) (answer : EditAnswer) :
    session.requested tree answer =
      if (WorkspaceEdit.sortedDocuments (session.collected tree) session.documents.versions).isEmpty then []
      else [Notice.applyEdit (.versioned
        (WorkspaceEdit.sortedDocuments (session.collected tree) session.documents.versions))] := by
  have edit : session.workspaceEdit (session.collected tree) =
      .versioned (WorkspaceEdit.sortedDocuments (session.collected tree) session.documents.versions) := by
    rw [workspaceEdit, if_pos versioned, WorkspaceEdit.ofEdits_some]
  rw [requested_eq, edit, WorkspaceEdit.isEmpty_sortedDocuments]

/-- Versioned edits match the documents that they were made for. After any notifications about documents the store
reflects them, and the edits that the command then asks for are right for the store, in whatever order it gives its
documents. -/
theorem versioned_edits_match_documents {params : Value} {first : Session}
    (started : Session.start.started? params = some first) (versioned : first.versioned = true) (tree : FileTree)
    (answer : EditAnswer) {messages : List Message} (about : ∀ message ∈ messages, message.method ∈ documentMethods) :
    DocumentEvent.Reflects (first.afterAll tree answer messages).documents
        (messages.filterMap DocumentEvent.ofMessage?) ∧
      ∀ order : Store, order.Perm (first.afterAll tree answer messages).documents → ∃ documents,
        ((first.afterAll tree answer messages).reordered order).requested tree answer =
          (if documents.isEmpty then [] else [Notice.applyEdit (.versioned documents)]) ∧
        (first.afterAll tree answer messages).Versions tree order documents := by
  obtain ⟨ready, empty, placed⟩ := started?_spec started
  have after := afterAll_eq ready tree answer about
  rw [empty] at after
  have reflects := DocumentEvent.reflects_foldl (messages.filterMap DocumentEvent.ofMessage?)
  rw [after]
  refine ⟨reflects, fun order perm => ⟨_, ?_, versions_sortedDocuments placed reflects.distinct perm⟩⟩
  apply requested_of_versioned
  exact versioned

section Examples

open Json.Value

/-- The parameters of an editor that takes versions and works in a directory. -/
def versionedParams : Value :=
  ofFields [("rootUri", .str "file:///w".toList), ("capabilities", ofFields [("workspace",
    ofFields [("workspaceEdit", ofFields [("documentChanges", .bool true)])])])]

def versionedSession : Session :=
  { start with phase := .ready, root := some (.ofText "/w".toList), versioned := true }

def openedUri : Uri :=
  { scheme := Uri.fileScheme, authority := some .blank, path := "/w/A.java".toList, rootless := false, tail := [] }

/-- The file is opened empty and gets a mapping in its second version. -/
def openThenChange : List Message :=
  [{ method := "textDocument/didOpen", wantsResponse := false
     params := some (ofFields [("textDocument", ofFields [("uri", .str "file:///w/A.java".toList),
       ("languageId", .str "java".toList), ("version", .nat 1), ("text", .str [])])]) },
   { method := "textDocument/didChange", wantsResponse := false
     params := some (ofFields
      [("textDocument", ofFields [("uri", .str "file:///w/A.java".toList), ("version", .nat 2)]),
       ("contentChanges", .arr [ofFields [("text", .str "@Controller @GetMapping(\"/x\") void x()".toList)]])]) }]

def savedWorkspace : FileTree where
  root := .directory [("w".toList, .directory [("A.java".toList, .file (.text "class A".toList))])]
  current := []

theorem events_openThenChange : openThenChange.filterMap DocumentEvent.ofMessage? =
    [.opened openedUri { content := [], version := 1 },
      .changed openedUri 2 ["@Controller @GetMapping(\"/x\") void x()".toList]] := by
  decide +kernel

def openThenChangeEdits : List (Uri × Option Int × List TextEdit) :=
  [(openedUri, some 2,
    [{ range := TextEdit.lineRange 0 0, newText := "// GET https://localhost:8080/x\n".toList }])]

theorem sortedDocuments_openThenChange :
    let session := versionedSession.afterAll savedWorkspace .applied openThenChange
    WorkspaceEdit.sortedDocuments (session.collected savedWorkspace) session.documents.versions =
      openThenChangeEdits := by
  decide +kernel

theorem openThenChange_edits_match :
    Session.start.started? versionedParams = some versionedSession ∧
      let session := versionedSession.afterAll savedWorkspace .applied openThenChange
      session.documents.lookup openedUri =
        some { content := "@Controller @GetMapping(\"/x\") void x()".toList, version := 2 } ∧
      (∃ documents, session.requested savedWorkspace .applied = [Notice.applyEdit (.versioned documents)] ∧
        session.Versions savedWorkspace session.documents documents ∧ ∃ entry ∈ documents, entry.1 = openedUri) ∧
      session.requested savedWorkspace .applied = [Notice.applyEdit (.versioned openThenChangeEdits)] := by
  have started : Session.start.started? versionedParams = some versionedSession := by decide +kernel
  have about : ∀ message ∈ openThenChange, message.method ∈ documentMethods := by decide
  obtain ⟨reflects, requests⟩ := versioned_edits_match_documents started rfl savedWorkspace .applied about
  have stored := reflects.latest openedUri [] _ _ events_openThenChange (by decide +kernel)
  obtain ⟨documents, requested, versions⟩ := requests _ (List.Perm.refl _)
  have listed : ∃ entry ∈ documents, entry.1 = openedUri := by
    refine (versions.complete [.ofText "/w/A.java".toList] (by decide +kernel) openedUri).mpr
      ⟨_, List.mem_cons_self, by decide +kernel, "@Controller @GetMapping(\"/x\") void x()".toList, ?_⟩
    decide +kernel
  have filled : documents.isEmpty = false := by
    obtain ⟨entry, member, -⟩ := listed
    rw [List.isEmpty_eq_false_iff]
    exact List.ne_nil_of_mem member
  rw [filled] at requested
  have asked : (versionedSession.afterAll savedWorkspace .applied openThenChange).requested savedWorkspace .applied =
      [Notice.applyEdit (.versioned openThenChangeEdits)] := by
    refine (requested_of_versioned rfl .applied).trans ?_
    rw [sortedDocuments_openThenChange]
    rfl
  exact ⟨started, stored.trans (by decide +kernel), ⟨documents, requested, versions, listed⟩, asked⟩

end Examples

end Session

end RouteComments.Editor
