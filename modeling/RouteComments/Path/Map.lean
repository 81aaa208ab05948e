import RouteComments.Path

set_option autoImplicit false

namespace RouteComments

/-- Values by path, in the order in which the paths came. Spellings with the same components are one key, and the
spelling that came first is kept. -/
abbrev PathMap (β : Type) := List (Path × β)

namespace PathMap

variable {β : Type}

def get? (path : Path) : PathMap β → Option β
  | [] => none
  | (other, value) :: rest => if path.same other then some value else get? path rest

/-- Puts a value under a path, in place of the one already there. -/
def put (path : Path) (value : β) : PathMap β → PathMap β
  | [] => [(path, value)]
  | (other, found) :: rest =>
    if path.same other then (other, value) :: rest else (other, found) :: put path value rest

/-- The map of some values; of two for one path the last stays. -/
def ofList (entries : List (Path × β)) : PathMap β :=
  entries.foldl (fun map (path, value) => put path value map) []

def paths (map : PathMap β) : List Path :=
  map.map Prod.fst

@[simp] theorem get?_nil (path : Path) : get? path ([] : PathMap β) = none := rfl

@[simp] theorem put_nil (path : Path) (value : β) : put path value [] = [(path, value)] := rfl

theorem same_iff {first second : Path} : first.same second = true ↔ first.components = second.components := by
  simp [Path.same]

theorem get?_put_of_same {path other : Path} (value : β) (map : PathMap β) (h : other.same path = true) :
    (put path value map).get? other = some value := by
  rw [same_iff] at h
  induction map with
  | nil => simp [get?, same_iff, h]
  | cons entry rest ih =>
    obtain ⟨name, found⟩ := entry
    by_cases here : path.same name = true
    · have there : other.same name = true := same_iff.2 (h.trans (same_iff.1 here))
      simp [put, get?, here, there]
    · have there : other.same name = false := by
        rw [Bool.eq_false_iff]
        exact fun found => here (same_iff.2 (h.symm.trans (same_iff.1 found)))
      simp [put, get?, here, there, ih]

theorem get?_put_of_not_same {path other : Path} (value : β) (map : PathMap β)
    (h : other.same path = false) : (put path value map).get? other = map.get? other := by
  induction map with
  | nil => simp [get?, h]
  | cons entry rest ih =>
    obtain ⟨name, found⟩ := entry
    by_cases here : path.same name = true
    · have there : other.same name = false := by
        rw [Bool.eq_false_iff] at h ⊢
        exact fun found => h (same_iff.2 ((same_iff.1 found).trans (same_iff.1 here).symm))
      simp [put, get?, here, there]
    · simp [put, get?, here, ih]

end PathMap

end RouteComments
