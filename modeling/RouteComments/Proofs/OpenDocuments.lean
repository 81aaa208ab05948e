import RouteComments.Editor.Session.Receive
import RouteComments.Proofs.CollectedEdits

set_option autoImplicit false

namespace RouteComments.Editor

open Text Json

/-- What a notification says about the documents of an editor. -/
inductive DocumentEvent where
  | opened (uri : Uri) (document : OpenDocument)
  | changed (uri : Uri) (version : Int) (texts : List Text)
  | closed (uri : Uri)
  deriving DecidableEq, Repr

namespace DocumentEvent

/-- Reads the event that a notification tells; `none` if its parameters do not fit or it is about something else. -/
def read? (value : Value) : Notification → Option DocumentEvent
  | .didOpen => do
    let params ← checked? openParams value
    let document ← openParams.part? "textDocument" params
    let content ← (documentRecord.part? "text" document).bind string?
    let version ← (documentRecord.part? "version" document).bind version?
    let uri ← documentUri? openParams params
    some (.opened uri { content, version })
  | .didChange => do
    let params ← checked? changeParams value
    let document ← changeParams.part? "textDocument" params
    let version ← (versionedRecord.part? "version" document).bind version?
    let changes ← changeParams.part? "contentChanges" params
    let texts ← items? (fun change => (changeRecord.part? "text" change).bind string?) changes
    let uri ← documentUri? changeParams params
    some (.changed uri version texts)
  | .didClose => do
    let params ← checked? closeParams value
    let uri ← documentUri? closeParams params
    some (.closed uri)
  | _ => none

def apply (store : Store) : DocumentEvent → Store
  | .opened uri document => store.put uri document
  | .changed uri version texts => store.change uri version texts
  | .closed uri => store.close uri

/-- The event that a message tells. One that asks for a response is refused. -/
def ofMessage? (message : Message) : Option DocumentEvent :=
  match Method.ofName message.method with
  | .notification notification => if message.wantsResponse then none else message.params.bind (read? · notification)
  | _ => none

/-- The document that an event carries for a URI: one that is opened, or the last text of a change that has one. -/
def carried? (uri : Uri) : DocumentEvent → Option OpenDocument
  | .opened other document => if other = uri then some document else none
  | .changed other version texts =>
    if other = uri then texts.getLast?.map fun content => { content, version } else none
  | .closed _ => none

/-- Whether a document is open after some events: it was opened and not closed since. -/
def IsOpen (uri : Uri) (events : List DocumentEvent) : Prop :=
  ∃ before document after, events = before ++ .opened uri document :: after ∧ .closed uri ∉ after

section Steps

variable {uri : Uri} {store : Store} {event : DocumentEvent}

/-- An open document stays open until it is closed, with what the event carries for it. -/
theorem lookup_apply_of_open {document : OpenDocument} (found : store.lookup uri = some document)
    (kept : event ≠ .closed uri) : (event.apply store).lookup uri = some ((carried? uri event).getD document) := by
  cases event with
  | opened other new =>
    by_cases same : other = uri
    · subst same
      simp [apply, Store.put, carried?, Keyed.lookup_put_self]
    · simp [apply, Store.put, carried?, same, Keyed.lookup_put_of_ne _ _ (Ne.symm same), found]
  | changed other version texts =>
    simp only [apply, Store.change]
    by_cases same : other = uri
    · subst same
      cases last : texts.getLast? with
      | none => simp [carried?, last, found]
      | some content => simp [carried?, last, Keyed.lookup_change_self, found]
    · cases last : texts.getLast? with
      | none => simp [carried?, same, found]
      | some content => simp [carried?, same, Keyed.lookup_change_of_ne _ _ (Ne.symm same), found]
  | closed other =>
    have different : uri ≠ other := fun same => kept (same ▸ rfl)
    simp [apply, Store.close, carried?, Keyed.lookup_erase_of_ne _ different, found]

theorem lookup_apply_of_opened (uri : Uri) (document : OpenDocument) (store : Store) :
    ((opened uri document).apply store).lookup uri = some document :=
  Keyed.lookup_put_self uri document store

/-- Only opening a document makes an entry for it. -/
theorem lookup_apply_of_none (missing : store.lookup uri = none) (other : ∀ document, event ≠ .opened uri document) :
    (event.apply store).lookup uri = none := by
  cases event with
  | opened name new =>
    have different : uri ≠ name := fun same => other new (same ▸ rfl)
    simp [apply, Store.put, Keyed.lookup_put_of_ne _ _ different, missing]
  | changed name version texts =>
    simp only [apply, Store.change]
    cases texts.getLast? with
    | none => exact missing
    | some content =>
      by_cases same : uri = name
      · subst same
        simp [Keyed.lookup_change_self, missing]
      · simp [Keyed.lookup_change_of_ne _ _ same, missing]
  | closed name =>
    by_cases same : uri = name
    · subst same
      exact Keyed.lookup_erase_self uri store
    · simp [apply, Store.close, Keyed.lookup_erase_of_ne _ same, missing]

theorem lookup_apply_closed (uri : Uri) (store : Store) : ((closed uri).apply store).lookup uri = none :=
  Keyed.lookup_erase_self uri store

end Steps

/-- What stands in the store for a document that was opened and not closed since. -/
theorem lookup_foldl_of_open {uri : Uri} {store : Store} {document : OpenDocument} {events : List DocumentEvent}
    (found : store.lookup uri = some document) (kept : .closed uri ∉ events) :
    (events.foldl apply store).lookup uri = some ((events.filterMap (carried? uri)).getLast?.getD document) := by
  induction events generalizing store document with
  | nil => exact found
  | cons event rest ih =>
    have stays : event ≠ .closed uri := fun same => kept (same ▸ List.mem_cons_self)
    have later := ih (lookup_apply_of_open found stays) fun member => kept (List.mem_cons_of_mem _ member)
    rw [List.foldl_cons, later]
    cases carries : carried? uri event with
    | none => simp [carries]
    | some new => simp [carries, List.getLast?_cons]

/-- The store holds for an open document what the last event carried for it since it was opened. -/
theorem lookup_of_isOpen {uri : Uri} {store : Store} {before after : List DocumentEvent} {document : OpenDocument}
    (kept : .closed uri ∉ after) :
    ((before ++ .opened uri document :: after).foldl apply store).lookup uri =
      ((.opened uri document :: after).filterMap (carried? uri)).getLast? := by
  rw [List.foldl_append, List.foldl_cons, lookup_foldl_of_open (lookup_apply_of_opened uri document _) kept]
  simp [carried?, List.getLast?_cons]

/-- The store holds nothing for a document that is not open. -/
theorem lookup_of_not_isOpen {uri : Uri} {events : List DocumentEvent} (shut : ¬ IsOpen uri events) :
    (events.foldl apply []).lookup uri = none := by
  induction events using List.reverseRecOn with
  | nil => rfl
  | append_singleton rest event ih =>
    rw [List.foldl_append, List.foldl_cons, List.foldl_nil]
    by_cases closes : event = .closed uri
    · rw [closes, lookup_apply_closed]
    · apply lookup_apply_of_none
      · apply ih
        rintro ⟨before, document, after, rfl, kept⟩
        refine shut ⟨before, document, after ++ [event], by simp, ?_⟩
        simp [kept, Ne.symm closes]
      · rintro document rfl
        exact shut ⟨rest, document, [], rfl, List.not_mem_nil⟩

/-- No URI has two entries in the store. -/
theorem nodup_foldl {store : Store} (distinct : (store.map Prod.fst).Nodup) (events : List DocumentEvent) :
    ((events.foldl apply store).map Prod.fst).Nodup := by
  induction events generalizing store with
  | nil => exact distinct
  | cons event rest ih =>
    apply ih
    cases event with
    | opened uri document => exact Keyed.nodup_put distinct
    | changed uri version texts =>
      simp only [apply, Store.change]
      cases texts.getLast? with
      | none => exact distinct
      | some content =>
        have keys : (Keyed.change uri { content, version } store).map Prod.fst = store.map Prod.fst := by
          rw [Keyed.change, List.map_map]
          apply List.map_congr_left
          rintro ⟨other, found⟩ -
          by_cases same : other = uri <;> simp [same]
        rw [keys]
        exact distinct
    | closed uri => exact distinct.sublist (List.filter_sublist.map _)

/-- A store that holds, for the documents that are open after some events and for no others, what the last event carried
since they were opened. -/
structure Reflects (store : Store) (events : List DocumentEvent) : Prop where
  shut : ∀ uri, ¬ IsOpen uri events → store.lookup uri = none
  latest : ∀ uri before document after, events = before ++ .opened uri document :: after → .closed uri ∉ after →
    store.lookup uri = ((.opened uri document :: after).filterMap (carried? uri)).getLast?
  distinct : (store.map Prod.fst).Nodup

theorem reflects_foldl (events : List DocumentEvent) : Reflects (events.foldl apply []) events where
  shut _ := lookup_of_not_isOpen
  latest uri before document after shape kept := by
    rw [shape]
    exact lookup_of_isOpen kept
  distinct := by
    apply nodup_foldl
    exact List.nodup_nil

end DocumentEvent

/-- The methods of the notifications about open documents. -/
def documentMethods : List String :=
  ["textDocument/didOpen", "textDocument/didChange", "textDocument/didClose"]

namespace Session

variable {session : Session}

/-- What a notification about documents does to the session. -/
theorem notified?_eq (session : Session) (value : Value) {notification : Notification}
    (about : notification ∈ [.didOpen, .didChange, .didClose]) :
    session.notified? value notification = (DocumentEvent.read? value notification).map fun event =>
      { session with documents := event.apply session.documents } := by
  simp only [List.mem_cons, List.not_mem_nil, or_false] at about
  rcases about with rfl | rfl | rfl
  · simp only [notified?, DocumentEvent.read?, Option.bind_eq_bind, Option.map_bind, Function.comp_def, Option.map_some,
      DocumentEvent.apply]
  · simp only [notified?, DocumentEvent.read?, Option.bind_eq_bind, Option.map_bind, Function.comp_def, Option.map_some,
      DocumentEvent.apply]
  · simp only [notified?, DocumentEvent.read?, Option.bind_eq_bind, Option.map_bind, Function.comp_def, Option.map_some,
      DocumentEvent.apply]

/-- A message about documents changes the store by the event that it tells, and nothing else. -/
theorem receive_eq {session : Session} (ready : session.phase = .ready) (tree : FileTree) (answer : EditAnswer)
    {message : Message} (about : message.method ∈ documentMethods) :
    (session.receive tree answer message).1 =
      { session with
        documents := (DocumentEvent.ofMessage? message).toList.foldl DocumentEvent.apply session.documents } := by
  have notifies : ∃ notification ∈ [Notification.didOpen, .didChange, .didClose],
      Method.ofName message.method = .notification notification := by
    simp only [documentMethods, List.mem_cons, List.not_mem_nil, or_false] at about
    rcases about with method | method | method
    · exact ⟨.didOpen, by simp, by rw [method]; rfl⟩
    · exact ⟨.didChange, by simp, by rw [method]; rfl⟩
    · exact ⟨.didClose, by simp, by rw [method]; rfl⟩
  obtain ⟨notification, listed, method⟩ := notifies
  have handled : session.receive tree answer message = session.notify message notification := by
    simp only [receive, method]
    exact if_pos ready
  simp only [handled, notify, DocumentEvent.ofMessage?, method]
  cases message.wantsResponse with
  | true => rfl
  | false =>
    cases message.params with
    | none => rfl
    | some params =>
      simp only [Bool.false_eq_true, if_false, notified?_eq session params listed, Option.bind_some]
      cases DocumentEvent.read? params notification with
      | none => rfl
      | some event => rfl

def afterAll (tree : FileTree) (answer : EditAnswer) (session : Session) (messages : List Message) : Session :=
  messages.foldl (fun session message => (session.receive tree answer message).1) session

theorem afterAll_eq {session : Session} (ready : session.phase = .ready) (tree : FileTree) (answer : EditAnswer)
    {messages : List Message} (about : ∀ message ∈ messages, message.method ∈ documentMethods) :
    session.afterAll tree answer messages =
      { session with
        documents := (messages.filterMap DocumentEvent.ofMessage?).foldl DocumentEvent.apply session.documents } := by
  induction messages generalizing session with
  | nil => rfl
  | cons message rest ih =>
    have step : session.afterAll tree answer (message :: rest) =
        (session.receive tree answer message).1.afterAll tree answer rest := rfl
    rw [step, receive_eq ready tree answer (about message List.mem_cons_self)]
    refine (ih ?_ fun other member => about other (List.mem_cons_of_mem _ member)).trans ?_
    · exact ready
    cases told : DocumentEvent.ofMessage? message with
    | none => simp [told]
    | some event => simp [told]

end Session

end RouteComments.Editor
