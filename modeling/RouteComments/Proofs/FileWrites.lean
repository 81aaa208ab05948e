import RouteComments.FileTree.Basic

set_option autoImplicit false

namespace RouteComments

open Text

namespace Entry

def content? : Entry → Option Content
  | .file content => some content
  | .directory _ => none

theorem map_isDirectory (found : Option Entry) :
    found.map isDirectory = (found.map content?).map Option.isNone := by
  match found with
  | none => rfl
  | some (.file _) => rfl
  | some (.directory _) => rfl

theorem join_content? (found : Option Entry) : (found.map content?).join = found.bind content? := by
  cases found <;> rfl

theorem at?_append (first second : List Text) (entry : Entry) :
    entry.at? (first ++ second) = (entry.at? first).bind (at? second) := by
  induction first generalizing entry with
  | nil => rfl
  | cons name rest ih =>
    rw [List.cons_append, at?, at?]
    cases entry.child? name with
    | none => rfl
    | some inner => exact ih inner

/-- What stands above something is a directory. -/
theorem isDirectory_above {entry above : Entry} {place : List Text} {name : Text}
    (inside : (entry.at? (place ++ [name])).isSome = true) (here : entry.at? place = some above) :
    above.isDirectory = true := by
  rw [at?_append, here] at inside
  cases above with
  | directory entries => rfl
  | file content => simp [at?, child?] at inside

/-- Putting a file in the place of a file changes what stands at that place and nothing else. -/
theorem at?_put_file {entry : Entry} {place : List Text} {old : Content} (new : Content)
    (here : entry.at? place = some (.file old)) (other : List Text) :
    ((put (.file new) place entry).at? other).map content? =
      if other = place then some (some new) else (entry.at? other).map content? := by
  induction place generalizing entry other with
  | nil =>
    cases Option.some.inj here
    cases other with
    | nil => simp [put, at?, content?]
    | cons name rest => simp [put, at?, child?]
  | cons name rest ih =>
    cases entry with
    | file content => simp [at?, child?] at here
    | directory entries =>
      obtain ⟨inner, found, below⟩ := Option.bind_eq_some_iff.mp here
      have child : entries.lookup name = some inner := found
      cases other with
      | nil => simp [put, at?, content?]
      | cons first others =>
        by_cases same : first = name
        · subst same
          have update := ih below others
          simpa [put, at?, child?, child, Keyed.lookup_put_self] using update
        · simp [put, at?, child?, child, same, Keyed.lookup_put_of_ne _ _ same]

end Entry

namespace FileTree

def content? (tree : FileTree) (place : List Text) : Option Content :=
  (tree.root.at? place).bind Entry.content?

section Shapes

/-- Two trees have the same directories and files, whatever the files hold. -/
structure SameShape (first second : FileTree) : Prop where
  current : first.current = second.current
  kinds : ∀ place, (first.root.at? place).map Entry.isDirectory = (second.root.at? place).map Entry.isDirectory

variable {first second third : FileTree}

theorem SameShape.refl (tree : FileTree) : SameShape tree tree :=
  ⟨rfl, fun _ => rfl⟩

theorem SameShape.trans (one : SameShape first second) (two : SameShape second third) : SameShape first third :=
  ⟨one.current.trans two.current, fun place => (one.kinds place).trans (two.kinds place)⟩

theorem SameShape.isSome (shape : SameShape first second) (place : List Text) :
    (first.root.at? place).isSome = (second.root.at? place).isSome := by
  have kinds := congrArg Option.isSome (shape.kinds place)
  simpa using kinds

theorem lookup_isSome {root : Entry} {place : List Text} {entries : List (Text × Entry)}
    (here : root.at? place = some (.directory entries)) (name : Text) :
    (entries.lookup name).isSome = (root.at? (place ++ [name])).isSome := by
  rw [Entry.at?_append, here]
  cases found : entries.lookup name with
  | none => simp [Entry.at?, Entry.child?, found]
  | some inner => simp [Entry.at?, Entry.child?, found]

theorem SameShape.find? (shape : SameShape first second) {place : List Text}
    {entries entriesToo : List (Text × Entry)} (here : first.root.at? place = some (.directory entries))
    (hereToo : second.root.at? place = some (.directory entriesToo)) (name : Path) :
    FileTree.find? entries name = FileTree.find? entriesToo name := by
  have same : ∀ text, (entries.lookup text).isSome = (entriesToo.lookup text).isSome := by
    intro text
    rw [lookup_isSome here, lookup_isSome hereToo, shape.isSome]
  simp only [FileTree.find?, same]

/-- Segments lead to the same place in trees of one shape. -/
theorem SameShape.follow (shape : SameShape first second) (segments : List Path) (place : List Text) :
    FileTree.follow first.root place segments = FileTree.follow second.root place segments := by
  induction segments generalizing place with
  | nil => rfl
  | cons segment rest ih =>
    have kinds := shape.kinds place
    rw [FileTree.follow, FileTree.follow]
    match here : first.root.at? place, hereToo : second.root.at? place with
    | none, none => rfl
    | some (.file _), some (.file _) => rfl
    | some (.directory entries), some (.directory entriesToo) =>
      simp only [ih, shape.find? here hereToo]
    | none, some _ => simp [here, hereToo] at kinds
    | some _, none => simp [here, hereToo] at kinds
    | some (.file _), some (.directory _) => simp [here, hereToo, Entry.isDirectory] at kinds
    | some (.directory _), some (.file _) => simp [here, hereToo, Entry.isDirectory] at kinds

theorem SameShape.locate (shape : SameShape first second) (path : Path) :
    first.locate path = second.locate path := by
  have route : first.route path = second.route path := by
    simp only [FileTree.route, shape.current]
  simp only [FileTree.locate, route, shape.follow]

end Shapes

section Reads

variable {tree : FileTree} {path : Path} {place : List Text} {text : Text}

theorem read_eq_ok_iff : tree.read path = .ok text ↔
    ∃ place, tree.locate path = .ok place ∧ tree.content? place = some (.text text) := by
  simp only [FileTree.read, entry, content?]
  cases tree.locate path with
  | error fault => simp
  | ok place =>
    match here : tree.root.at? place with
    | none => simp [here]
    | some (.directory entries) => simp [here, Entry.content?]
    | some (.file (.binary bytes)) => simp [here, Entry.content?]
    | some (.file (.text found)) => simp [here, Entry.content?]

/-- What is read at a path depends on the shape of the tree and on the content at the place it leads to. -/
theorem read_congr {other : FileTree} (shape : SameShape other tree)
    (same : ∀ place, tree.locate path = .ok place → other.content? place = tree.content? place) :
    other.read path = tree.read path := by
  have kinds := shape.kinds
  simp only [FileTree.read, entry, shape.locate]
  cases located : tree.locate path with
  | error fault => rfl
  | ok place =>
    have content := same place located
    have kind := kinds place
    simp only [content?] at content
    match here : tree.root.at? place, hereToo : other.root.at? place with
    | none, none => simp only [here, hereToo]
    | none, some _ => simp [here, hereToo] at kind
    | some _, none => simp [here, hereToo] at kind
    | some (.file found), some (.file foundToo) =>
      simp only [here, hereToo, Option.bind_some, Entry.content?, Option.some.injEq] at content
      simp only [here, hereToo, content]
    | some (.directory entries), some (.directory entriesToo) => simp only [here, hereToo]
    | some (.file _), some (.directory _) => simp [here, hereToo, Entry.isDirectory] at kind
    | some (.directory _), some (.file _) => simp [here, hereToo, Entry.isDirectory] at kind

end Reads

section Writes

variable {tree : FileTree} {path : Path}

theorem follow_append (root : Entry) (start : List Text) (front back : List Path) :
    follow root start (front ++ back) = (follow root start front).bind (follow root · back) := by
  induction front generalizing start with
  | nil => rfl
  | cons segment rest ih =>
    simp only [List.cons_append, follow, ih]
    cases root.at? start with
    | none => rfl
    | some found =>
      cases found with
      | file content => rfl
      | directory entries =>
        by_cases stays : Path.isTrivial segment = true
        · simp only [stays, if_true]
        · by_cases up : segment = Path.twoDots
          · simp only [up]
            rfl
          · simp only [stays, up]
            match find? entries segment with
            | .error fault => rfl
            | .ok none => rfl
            | .ok (some name) => rfl

theorem exists_of_follow_append {root : Entry} {start place : List Text} {front back : List Path}
    (led : follow root start (front ++ back) = .ok place) :
    ∃ middle, follow root start front = .ok middle ∧ follow root middle back = .ok place := by
  rw [follow_append] at led
  cases reached : follow root start front with
  | error fault => simp [reached, Except.bind] at led
  | ok middle => exact ⟨middle, rfl, by simpa [reached, Except.bind] using led⟩

/-- What stands above something in the tree is there. -/
theorem at?_dropLast {root found : Entry} {place : List Text} (here : root.at? place = some found) :
    ∃ above, root.at? place.dropLast = some above ∧ (place ≠ [] → above.isDirectory = true) := by
  rcases List.eq_nil_or_concat place with rfl | ⟨front, name, rfl⟩
  · exact ⟨found, here, fun filled => absurd rfl filled⟩
  · rw [List.concat_eq_append] at here ⊢
    rw [List.dropLast_concat]
    have inside : (root.at? (front ++ [name])).isSome = true := by simp [here]
    rw [Entry.at?_append] at here
    obtain ⟨above, found, _⟩ := Option.bind_eq_some_iff.mp here
    exact ⟨above, found, fun _ => Entry.isDirectory_above inside found⟩

/-- The last step to a file is its name. -/
theorem follow_file {root : Entry} {start place : List Text} {segment : Path} {content : Content}
    (led : follow root start [segment] = .ok place) (here : root.at? place = some (.file content)) :
    placeIn root start segment false = .ok place ∧ Path.isTrivial segment = false ∧ segment ≠ Path.twoDots := by
  rw [follow] at led
  split at led
  · rename_i entries directory
    split at led
    · cases led
      simp [directory] at here
    · rename_i step
      split at led
      · cases led
        -- the directory above a directory is no file
        obtain ⟨above, found, isDirectory⟩ := at?_dropLast directory
        rw [here] at found
        cases found
        rcases List.eq_nil_or_concat start with rfl | ⟨front, name, rfl⟩
        · simp [directory] at here
        · exact absurd (isDirectory (by simp)) (by simp [Entry.isDirectory])
      · rename_i named
        split at led
        · rename_i name found
          cases led
          refine ⟨?_, by simpa using step, named⟩
          have spelled : segment.text? = some name := by
            simp only [find?] at found
            split at found
            · cases found
            · simp only [Except.ok.injEq] at found
              exact (Option.filter_eq_some_iff.mp found).1
          have file : entries.lookup name = some (.file content) := by
            rw [Entry.at?_append, directory] at here
            simpa [Entry.at?, Entry.child?] using here
          simp only [placeIn, directory, found, spelled, file]
          rfl
        · cases led
        · cases led
  · cases led
  · cases led

theorem segments_route_ne_nil (tree : FileTree) (path : Path) : (tree.route path).2 ≠ [] := by
  unfold route
  split
  · exact pieces_ne_nil _ _
  · exact pieces_ne_nil _ _

/-- A file is written where it is read. -/
theorem writePlace_of_locate {place : List Text} {content : Content} (located : tree.locate path = .ok place)
    (here : tree.root.at? place = some (.file content)) : tree.writePlace path = .ok place := by
  unfold locate at located
  unfold writePlace
  have filled := segments_route_ne_nil tree path
  split at located
  · cases located
  · rename_i spelled
    generalize tree.route path = way at located filled ⊢
    obtain ⟨start, segments⟩ := way
    dsimp only at located filled ⊢
    rcases List.eq_nil_or_concat segments with rfl | ⟨before, last, rfl⟩
    · exact absurd rfl filled
    · rw [List.concat_eq_append] at located ⊢
      obtain ⟨middle, toMiddle, toPlace⟩ := exists_of_follow_append located
      obtain ⟨written, step, named⟩ := follow_file toPlace here
      have notEmpty : last.isEmpty = false := by
        simp only [Path.isTrivial, Bool.or_eq_false_iff] at step
        exact step.1
      have slash : (some last = some ([] : Path)) = False := by
        simpa using notEmpty
      simp [notEmpty, toMiddle, step, named, slash, written]

/-- A write changed the text of the file at one place and nothing else. -/
structure Rewrites (tree next : FileTree) (place : List Text) (text : Text) : Prop where
  shape : SameShape next tree
  inside : next.content? place = some (.text text)
  outside : ∀ other, other ≠ place → next.content? other = tree.content? other

/-- A file that can be read can be written. -/
theorem write_of_read {old : Text} (read : tree.read path = .ok old) (text : Text) :
    ∃ place next, tree.locate path = .ok place ∧ tree.write path text = .ok next ∧ Rewrites tree next place text := by
  obtain ⟨place, located, content⟩ := read_eq_ok_iff.mp read
  obtain ⟨found, here, isFile⟩ := Option.bind_eq_some_iff.mp content
  cases found with
  | directory entries => cases isFile
  | file content =>
    have changed := Entry.at?_put_file (.text text) here
    refine ⟨place, _, located, by rw [write, writePlace_of_locate located here], ?_⟩
    refine ⟨⟨rfl, fun other => ?_⟩, ?_, fun other differs => ?_⟩
    · rw [Entry.map_isDirectory, Entry.map_isDirectory, changed]
      by_cases same : other = place
      · simp [same, here, Entry.content?]
      · rw [if_neg same]
    · rw [content?, ← Entry.join_content?, changed, if_pos rfl]
      rfl
    · rw [content?, content?, ← Entry.join_content?, changed, if_neg differs, Entry.join_content?]

end Writes

end FileTree

end RouteComments
