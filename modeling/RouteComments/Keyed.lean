set_option autoImplicit false

namespace RouteComments.Keyed

variable {α β : Type} [BEq α]

/-- Puts a value under a key, in place of the one already there. -/
def put (key : α) (value : β) : List (α × β) → List (α × β)
  | [] => [(key, value)]
  | (other, found) :: rest =>
    if other == key then (key, value) :: rest else (other, found) :: put key value rest

/-- Changes the value under a key, if there is one. -/
def change (key : α) (value : β) (entries : List (α × β)) : List (α × β) :=
  entries.map fun (other, found) => if other == key then (other, value) else (other, found)

def erase (key : α) (entries : List (α × β)) : List (α × β) :=
  entries.filter fun entry => entry.1 != key

/-- The map of some values; of two under one key the last stays. -/
def ofList (entries : List (α × β)) : List (α × β) :=
  entries.foldl (fun map (key, value) => put key value map) []

@[simp] theorem put_nil (key : α) (value : β) : put key value [] = [(key, value)] := rfl

@[simp] theorem change_nil (key : α) (value : β) : change key value [] = [] := rfl

@[simp] theorem erase_nil (key : α) : erase key ([] : List (α × β)) = [] := rfl

variable [LawfulBEq α]

theorem lookup_put_self (key : α) (value : β) (entries : List (α × β)) :
    (put key value entries).lookup key = some value := by
  induction entries with
  | nil => simp
  | cons entry rest ih =>
    obtain ⟨name, found⟩ := entry
    by_cases same : name = key
    · simp [put, same]
    · have differs : (key == name) = false := by simp [Ne.symm same]
      simp [put, same, List.lookup_cons, differs, ih]

theorem lookup_put_of_ne {key other : α} (value : β) (entries : List (α × β)) (h : other ≠ key) :
    (put key value entries).lookup other = entries.lookup other := by
  have differs : (other == key) = false := by simp [h]
  induction entries with
  | nil => simp [List.lookup_cons, differs]
  | cons entry rest ih =>
    obtain ⟨name, found⟩ := entry
    by_cases same : name = key
    · simp [put, same, List.lookup_cons, differs]
    · simp [put, same, List.lookup_cons, ih]

theorem lookup_change_self (key : α) (value : β) (entries : List (α × β)) :
    (change key value entries).lookup key = (entries.lookup key).map fun _ => value := by
  induction entries with
  | nil => simp
  | cons entry rest ih =>
    obtain ⟨name, found⟩ := entry
    by_cases same : name = key
    · simp [change, same]
    · have differs : (key == name) = false := by simp [Ne.symm same]
      simpa [change, same, List.lookup_cons, differs] using ih

theorem lookup_change_of_ne {key other : α} (value : β) (entries : List (α × β)) (h : other ≠ key) :
    (change key value entries).lookup other = entries.lookup other := by
  have differs : (other == key) = false := by simp [h]
  induction entries with
  | nil => simp
  | cons entry rest ih =>
    obtain ⟨name, found⟩ := entry
    simp only [change] at ih
    by_cases same : name = key
    · simp [change, same, List.lookup_cons, differs, ih]
    · simp [change, same, List.lookup_cons, ih]

theorem lookup_erase_self (key : α) (entries : List (α × β)) : (erase key entries).lookup key = none := by
  induction entries with
  | nil => simp
  | cons entry rest ih =>
    obtain ⟨name, found⟩ := entry
    simp only [erase] at ih
    by_cases same : name = key
    · simp only [erase, List.filter_cons, same, bne_self_eq_false, Bool.false_eq_true, if_false, ih]
    · have differs : (key == name) = false := by simp [Ne.symm same]
      simp only [erase, List.filter_cons, bne_iff_ne, ne_eq, same, not_false_eq_true, if_true,
        List.lookup_cons, differs, ih]

theorem lookup_erase_of_ne {key other : α} (entries : List (α × β)) (h : other ≠ key) :
    (erase key entries).lookup other = entries.lookup other := by
  have differs : (other == key) = false := by simp [h]
  induction entries with
  | nil => simp
  | cons entry rest ih =>
    obtain ⟨name, found⟩ := entry
    simp only [erase] at ih
    by_cases same : name = key
    · simp only [erase, List.filter_cons, same, bne_self_eq_false, Bool.false_eq_true, if_false, ih,
        List.lookup_cons, differs]
    · simp only [erase, List.filter_cons, bne_iff_ne, ne_eq, same, not_false_eq_true, if_true,
        List.lookup_cons, ih]

end RouteComments.Keyed
