import RouteComments.Text.Utf8

set_option autoImplicit false

namespace RouteComments

open Text

/-- A path as it is spelled. It is shown so, but compared by its components, for which repeated slashes, a slash at
the end and inner dots do not count. Names of files are bytes, and not all of them are texts. -/
abbrev Path := List Glyph

namespace Path

def ofText (text : Text) : Path :=
  text.map .char

def text? (path : Path) : Option Text :=
  path.mapM fun
    | .char c => some c
    | .broken _ => none

/-- What is shown for a path. -/
def shown (path : Path) : Text :=
  path.map Glyph.shown

def bytes (path : Path) : List UInt8 :=
  path.flatMap Glyph.bytes

/-- A text is shown as it is spelled. -/
@[simp] theorem shown_ofText (text : Text) : (ofText text).shown = text := by
  induction text with
  | nil => rfl
  | cons c rest ih =>
    simp only [ofText, shown, List.map_cons, List.map_map, List.cons.injEq] at ih ⊢
    exact ⟨rfl, ih⟩

@[simp] theorem text?_ofText (text : Text) : (ofText text).text? = some text := by
  induction text with
  | nil => rfl
  | cons c rest ih =>
    simp only [ofText, text?, List.map_cons, List.mapM_cons] at ih ⊢
    simp [ih]

inductive Component where
  | root
  /-- A dot at the start of a relative path. -/
  | current
  | parent
  | name (name : Path)
  deriving DecidableEq, Repr

/-- Whether a path starts at the root. -/
def isAbsolute (path : Path) : Bool :=
  path.head? == some (.char '/')

/-- Whether a segment between slashes is no step at all. -/
def isTrivial (segment : Path) : Bool :=
  segment.isEmpty || segment == [.char '.']

/-- The segment that leads to the directory above. -/
def twoDots : Path :=
  [.char '.', .char '.']

def segments (path : Path) : List Path :=
  pieces (.char '/') path

def steps (segments : List Path) : List Component :=
  (segments.filter (!isTrivial ·)).map fun segment =>
    if segment = twoDots then .parent else .name segment

def components (path : Path) : List Component :=
  match path with
  | .char '/' :: rest => .root :: steps (segments rest)
  | _ =>
    match segments path with
    | [.char '.'] :: rest => .current :: steps rest
    | segments => steps segments

/-- The order of components: root, dot, two dots, and then names by their bytes. -/
def Component.precedes : Component → Component → Bool
  | .root, _ => true
  | .current, .root => false
  | .current, _ => true
  | .parent, .root => false
  | .parent, .current => false
  | .parent, _ => true
  | .name a, .name b => bytesPrecede a.bytes b.bytes
  | .name _, _ => false

def componentsPrecede : List Component → List Component → Bool
  | [], _ => true
  | _ :: _, [] => false
  | a :: as, b :: bs => if a = b then componentsPrecede as bs else a.precedes b

/-- The order of paths, component by component. -/
def precedes (first second : Path) : Bool :=
  componentsPrecede first.components second.components

/-- Whether two spellings have the same components. -/
def same (first second : Path) : Bool :=
  first.components == second.components

/-- A path with another behind it; an absolute one takes its place. -/
def join (path other : Path) : Path :=
  if other.isAbsolute then other
  else if path.isEmpty || path.getLast? == some (.char '/') then path ++ other
  else path ++ .char '/' :: other

/-- The segments before the last that is a step, without trivial ones at their end. -/
def dropLastStep? (segments : List Path) : Option (List Path) :=
  match segments.reverse.dropWhile isTrivial with
  | [] => none
  | _ :: before => some (before.dropWhile isTrivial).reverse

/-- The path without its last component. The root and the empty path have none. -/
def parent? (path : Path) : Option Path :=
  match path with
  | .char '/' :: rest =>
    (dropLastStep? (segments rest)).map fun kept => .char '/' :: joinWith [.char '/'] kept
  | _ =>
    match segments path with
    | [] => none
    | first :: rest =>
      match dropLastStep? rest with
      | some kept => some (joinWith [.char '/'] (first :: kept))
      | none => if first.isEmpty then none else some []

/-- A dropped step is not empty, and nothing before it changes. -/
theorem dropLastStep?_eq_some {segments kept : List Path} (h : dropLastStep? segments = some kept) :
    ∃ dropped, segments = kept ++ dropped ∧ dropped.flatten ≠ [] := by
  unfold dropLastStep? at h
  have split := List.takeWhile_append_dropWhile (p := isTrivial) (l := segments.reverse)
  have head := List.head?_dropWhile_not isTrivial segments.reverse
  cases shape : segments.reverse.dropWhile isTrivial with
  | nil => simp [shape] at h
  | cons last before =>
    rw [shape] at split h head
    have inner := List.takeWhile_append_dropWhile (p := isTrivial) (l := before)
    have back : segments = before.reverse ++ last :: (segments.reverse.takeWhile isTrivial).reverse := by
      have reversed := congrArg List.reverse split
      simpa using reversed.symm
    have front : before.reverse = kept ++ (before.takeWhile isTrivial).reverse := by
      have reversed := congrArg List.reverse inner
      simp only [List.reverse_append, Option.some.injEq] at reversed h
      rw [← reversed, h]
    refine ⟨(before.takeWhile isTrivial).reverse ++ last :: (segments.reverse.takeWhile isTrivial).reverse,
      ?_, ?_⟩
    · rw [← List.append_assoc, ← front]
      exact back
    · intro empty
      simp only [List.flatten_append, List.flatten_cons, List.append_eq_nil_iff] at empty
      simp [empty.2.1, isTrivial] at head

theorem length_joinWith_lt {segments kept : List Path} (h : dropLastStep? segments = some kept) :
    (joinWith [.char '/'] kept).length < (joinWith [.char '/'] segments).length := by
  obtain ⟨dropped, rfl, nonempty⟩ := dropLastStep?_eq_some h
  have shorter := length_joinWith_append [.char '/'] kept dropped
  have positive := List.length_pos_iff.2 nonempty
  omega

theorem length_joinWith_cons_lt {first : Path} {rest kept : List Path} (h : dropLastStep? rest = some kept) :
    (joinWith [.char '/'] (first :: kept)).length < (joinWith [.char '/'] (first :: rest)).length := by
  obtain ⟨dropped, rfl, nonempty⟩ := dropLastStep?_eq_some h
  have shorter := length_joinWith_append [.char '/'] (first :: kept) dropped
  have positive := List.length_pos_iff.2 nonempty
  simp only [List.cons_append] at shorter
  omega

/-- The path above is shorter. -/
theorem length_lt_of_parent? {path above : Path} (h : path.parent? = some above) :
    above.length < path.length := by
  unfold parent? at h
  split at h
  · rename_i rest
    obtain ⟨kept, found, rfl⟩ := Option.map_eq_some_iff.1 h
    have shorter := length_joinWith_lt found
    rw [segments, joinWith_pieces] at shorter
    simpa using shorter
  · have whole := joinWith_pieces (.char '/') path
    split at h
    · simp at h
    · rename_i first rest parts
      rw [segments] at parts
      rw [parts] at whole
      split at h
      · rename_i kept found
        have shorter : (joinWith [.char '/'] (first :: kept)).length < (joinWith [.char '/'] (first :: rest)).length :=
          length_joinWith_cons_lt found
        rw [whole] at shorter
        simp_all
      · split at h
        · simp at h
        · have bound := length_flatten_le_joinWith [.char '/'] (first :: rest)
          rw [whole] at bound
          have positive : 0 < first.length := by
            cases first with
            | nil => simp_all
            | cons c cs => simp
          simp only [List.flatten_cons, List.length_append] at bound
          simp only [Option.some.injEq] at h
          rw [← h]
          simp
          omega

def fileName? (path : Path) : Option Path :=
  match path.components.getLast? with
  | some (.name name) => some name
  | _ => none

/-- What stands before and behind the last dot of a name, if there is one that is not its first character. -/
def splitName (name : Path) : Path × Option Path :=
  let behind := (name.reverse.takeWhile (· != .char '.')).reverse
  match (name.reverse.dropWhile (· != .char '.')).reverse.dropLast with
  | [] => (name, none)
  | stem => (stem, some behind)

/-- The extension of the file name. -/
def extension? (path : Path) : Option Path :=
  path.fileName?.bind fun name => (splitName name).2

/-- The file name without its extension. -/
def fileStem? (path : Path) : Option Path :=
  path.fileName?.map fun name => (splitName name).1

/-- The path and the paths above it, nearest first. -/
def upward (path : Path) : List Path :=
  path ::
    match found : parent? path with
    | some above =>
      have : above.length < path.length := length_lt_of_parent? found
      upward above
    | none => []
termination_by path.length

end Path

end RouteComments
