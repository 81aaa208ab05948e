import RouteComments.Plan.Operation

set_option autoImplicit false

namespace RouteComments

/-- Items from the start of a range on are those of the range and those behind it. -/
theorem LineRange.drop_start_eq {α : Type} (range : LineRange) (ordered : range.start ≤ range.stop) (items : List α) :
    items.drop range.start =
      (items.drop range.start).take (range.stop - range.start) ++ items.drop range.stop := by
  rw [← Nat.add_sub_cancel' ordered, ← List.drop_drop, Nat.add_sub_cancel_left, List.take_append_drop]

namespace Operation

open Text

def first : Operation → Nat
  | .delete range => range.start
  | .insert line _ => line

/-- The line behind those that an operation touches; an insertion looks at the line it lands before. -/
def past : Operation → Nat
  | .delete range => range.stop
  | .insert line _ => line + 1

def removes (line : Nat) : Operation → Bool
  | .delete range => range.contains line
  | .insert _ _ => false

/-- The texts of the lines that an operation puts before a line. -/
def textsAt (line : Nat) : Operation → List Text
  | .delete _ => []
  | .insert other text => if other = line then pieces '\n' text else []

def removedBy (operations : List Operation) (line : Nat) : Bool :=
  operations.any (removes line)

/-- The lines that some operations put before a line of a buffer, with the ending that suits it there. -/
def insertedBy (operations : List Operation) (buffer : List Line) (line : Nat) : List Line :=
  (operations.flatMap (textsAt line)).map fun text => { text, ending := Document.endingAt buffer line }

/-- The lines of a buffer, counted from `index`, with some lines put before them and some left out. -/
def settle (inserted : Nat → List Line) (removed : Nat → Bool) : Nat → List Line → List Line
  | _, [] => []
  | index, line :: rest =>
    inserted index ++ (if removed index then [] else [line]) ++ settle inserted removed (index + 1) rest

section Settle

variable {inserted inserted' : Nat → List Line} {removed removed' : Nat → Bool}

theorem settle_append (inserted : Nat → List Line) (removed : Nat → Bool) (index : Nat)
    (front back : List Line) :
    settle inserted removed index (front ++ back) =
      settle inserted removed index front ++ settle inserted removed (index + front.length) back := by
  induction front generalizing index with
  | nil => rfl
  | cons line rest ih =>
    simp only [List.cons_append, settle, ih, List.length_cons, List.append_assoc]
    rw [show index + 1 + rest.length = index + (rest.length + 1) by omega]

theorem settle_take_drop (inserted : Nat → List Line) (removed : Nat → Bool) (count : Nat)
    (lines : List Line) :
    settle inserted removed 0 lines =
      settle inserted removed 0 (lines.take count) ++ settle inserted removed count (lines.drop count) := by
  by_cases inside : count ≤ lines.length
  · have whole := settle_append inserted removed 0 (lines.take count) (lines.drop count)
    rwa [List.take_append_drop, List.length_take_of_le inside, Nat.zero_add] at whole
  · rw [List.take_of_length_le (by omega), List.drop_eq_nil_of_le (by omega), settle, List.append_nil]

theorem settle_congr {index : Nat} {lines : List Line}
    (sameInserted : ∀ k, index ≤ k → k < index + lines.length → inserted k = inserted' k)
    (sameRemoved : ∀ k, index ≤ k → k < index + lines.length → removed k = removed' k) :
    settle inserted removed index lines = settle inserted' removed' index lines := by
  induction lines generalizing index with
  | nil => rfl
  | cons line rest ih =>
    simp only [List.length_cons] at sameInserted sameRemoved
    rw [settle, settle, sameInserted index (by omega) (by omega), sameRemoved index (by omega) (by omega),
      ih (fun k lower upper => sameInserted k (by omega) (by omega))
        (fun k lower upper => sameRemoved k (by omega) (by omega))]

theorem settle_untouched {index : Nat} {lines : List Line}
    (noneInserted : ∀ k, index ≤ k → k < index + lines.length → inserted k = [])
    (noneRemoved : ∀ k, index ≤ k → k < index + lines.length → removed k = false) :
    settle inserted removed index lines = lines := by
  induction lines generalizing index with
  | nil => rfl
  | cons line rest ih =>
    simp only [List.length_cons] at noneInserted noneRemoved
    rw [settle, noneInserted index (by omega) (by omega), noneRemoved index (by omega) (by omega),
      ih (fun k lower upper => noneInserted k (by omega) (by omega))
        (fun k lower upper => noneRemoved k (by omega) (by omega))]
    rfl

theorem settle_removed {index : Nat} {lines : List Line}
    (noneInserted : ∀ k, index ≤ k → k < index + lines.length → inserted k = [])
    (allRemoved : ∀ k, index ≤ k → k < index + lines.length → removed k = true) :
    settle inserted removed index lines = [] := by
  induction lines generalizing index with
  | nil => rfl
  | cons line rest ih =>
    simp only [List.length_cons] at noneInserted allRemoved
    rw [settle, noneInserted index (by omega) (by omega), allRemoved index (by omega) (by omega),
      ih (fun k lower upper => noneInserted k (by omega) (by omega))
        (fun k lower upper => allRemoved k (by omega) (by omega))]
    rfl

end Settle

/-- Operations that each touch only lines above those of the operations before it. -/
def Descending (operations : List Operation) : Prop :=
  operations.Pairwise fun earlier later => later.past ≤ earlier.first

/-- An insertion lands before a line of the buffer; a deletion may reach behind it, but not end before it
starts. -/
def Fits (buffer : List Line) : Operation → Prop
  | .delete range => range.start ≤ range.stop
  | .insert line _ => line < buffer.length

/-- What fits a buffer fits every other one that shares the lines it touches. -/
theorem Fits.of_past_le {buffer other : List Line} {operation : Operation} {count : Nat}
    (fits : Fits buffer operation) (above : operation.past ≤ count) (shared : min count buffer.length ≤ other.length) :
    Fits other operation := by
  cases operation with
  | delete range => exact fits
  | insert line text =>
    simp only [Fits, past] at fits above ⊢
    omega

theorem removes_eq_false {operation : Operation} {line : Nat}
    (outside : line < operation.first ∨ operation.past ≤ line) : removes line operation = false := by
  cases operation with
  | delete range =>
    simp only [first, past] at outside
    simp only [removes, LineRange.contains, Bool.and_eq_false_iff, decide_eq_false_iff_not]
    omega
  | insert other text => rfl

theorem textsAt_eq_nil {operation : Operation} {line : Nat}
    (outside : line < operation.first ∨ operation.past ≤ line) : textsAt line operation = [] := by
  cases operation with
  | delete range => rfl
  | insert other text =>
    simp only [first, past] at outside
    simp only [textsAt, ite_eq_right_iff]
    omega

theorem removedBy_eq_false {operations : List Operation} {line : Nat}
    (outside : ∀ operation ∈ operations, line < operation.first ∨ operation.past ≤ line) :
    removedBy operations line = false := by
  simp only [removedBy, List.any_eq_false, Bool.not_eq_true]
  exact fun operation member => removes_eq_false (outside operation member)

theorem insertedBy_eq_nil {operations : List Operation} {buffer : List Line} {line : Nat}
    (outside : ∀ operation ∈ operations, line < operation.first ∨ operation.past ≤ line) :
    insertedBy operations buffer line = [] := by
  simp only [insertedBy, List.map_eq_nil_iff, List.flatMap_eq_nil_iff]
  exact fun operation member => textsAt_eq_nil (outside operation member)

/-- The ending of an insertion depends on the lines up to the one it lands before. -/
theorem endingAt_append (front back : List Line) (line : Nat) (inside : line < front.length) :
    Document.endingAt (front ++ back) line = Document.endingAt front line := by
  have above : Document.endingAbove? (front ++ back) line = Document.endingAbove? front line := by
    cases line with
    | zero => rfl
    | succ line => simp only [Document.endingAbove?, List.getElem?_append_left (show line < front.length by omega)]
  simp only [Document.endingAt, List.getElem?_append_left inside, above]

/-- One operation leaves the lines before it and settles the rest. -/
theorem apply_eq_settle {operation : Operation} {buffer : List Line} (fits : Fits buffer operation) :
    apply buffer operation = buffer.take operation.first ++
      settle (insertedBy [operation] buffer) (removedBy [operation]) operation.first
        (buffer.drop operation.first) := by
  cases operation with
  | delete range =>
    simp only [Fits] at fits
    simp only [first]
    have taken : ((buffer.drop range.start).take (range.stop - range.start)).length =
        min (range.stop - range.start) (buffer.length - range.start) := by
      rw [List.length_take, List.length_drop]
    have empty : ∀ k, insertedBy [.delete range] buffer k = [] := fun k => rfl
    rw [range.drop_start_eq fits, settle_append, settle_removed (fun k _ _ => empty k),
      settle_untouched (fun k _ _ => empty k)]
    · simp only [apply, deleteLines, List.nil_append]
      by_cases bound : range.stop ≤ buffer.length
      · rw [Nat.min_eq_left bound, Nat.min_eq_left fits]
      · rw [Nat.min_eq_right (show buffer.length ≤ range.stop by omega), List.drop_length,
          List.drop_eq_nil_of_le (show buffer.length ≤ range.stop by omega), ← List.take_take,
          List.take_length]
    · intro k lower upper
      rw [List.length_drop] at upper
      simp only [removedBy, removes, LineRange.contains, List.any_cons, List.any_nil, Bool.or_false,
        Bool.and_eq_false_iff, decide_eq_false_iff_not]
      omega
    · intro k lower upper
      simp only [removedBy, removes, LineRange.contains, List.any_cons, List.any_nil, Bool.or_false,
        Bool.and_eq_true, decide_eq_true_eq]
      omega
  | insert line text =>
    simp only [Fits] at fits
    simp only [first]
    have split : buffer.drop line = buffer[line] :: buffer.drop (line + 1) :=
      List.drop_eq_getElem_cons fits
    have behind : ∀ k, line + 1 ≤ k → insertedBy [.insert line text] buffer k = [] := by
      intro k lower
      apply insertedBy_eq_nil
      simp only [List.mem_singleton, forall_eq, past]
      omega
    have kept : ∀ k, removedBy [.insert line text] k = false := fun k => rfl
    rw [split, settle, settle_untouched (fun k lower _ => behind k lower) (fun k _ _ => kept k)]
    simp only [apply, insertLines, Nat.min_eq_left (show line ≤ buffer.length by omega),
      if_neg (show line ≠ buffer.length by omega)]
    simp only [insertedBy, removedBy, removes, textsAt, split, List.flatMap_cons, List.flatMap_nil, if_true,
      List.append_nil, List.any_cons, List.any_nil, Bool.or_self, Bool.false_eq_true, if_false,
      List.append_assoc, List.cons_append, List.nil_append]

theorem insertedBy_cons (operation : Operation) (rest : List Operation) (buffer : List Line) (line : Nat) :
    insertedBy (operation :: rest) buffer line =
      insertedBy [operation] buffer line ++ insertedBy rest buffer line := by
  simp only [insertedBy, List.flatMap_cons, List.flatMap_nil, List.append_nil, List.map_append]

theorem removedBy_cons (operation : Operation) (rest : List Operation) (line : Nat) :
    removedBy (operation :: rest) line = (removedBy [operation] line || removedBy rest line) := by
  simp only [removedBy, List.any_cons, List.any_nil, Bool.or_false]

/-- Lines above an operation do not see it, and see of the buffer only themselves. -/
theorem settle_above {operation : Operation} {rest : List Operation} {front back back' : List Line}
    (above : front.length ≤ operation.first) :
    settle (insertedBy rest (front ++ back')) (removedBy rest) 0 front =
      settle (insertedBy (operation :: rest) (front ++ back)) (removedBy (operation :: rest)) 0 front := by
  have outside : ∀ k, k < front.length → ∀ other ∈ [operation], k < other.first ∨ other.past ≤ k := by
    intro k upper
    simp only [List.mem_singleton, forall_eq]
    omega
  apply settle_congr
  · intro k _ upper
    rw [insertedBy_cons, insertedBy_eq_nil (outside k (by omega)), List.nil_append, insertedBy, insertedBy,
      endingAt_append front back' k (by omega), endingAt_append front back k (by omega)]
  · intro k _ upper
    rw [removedBy_cons, removedBy_eq_false (outside k (by omega)), Bool.false_or]

section Below

variable {rest : List Operation} {index : Nat} (above : ∀ later ∈ rest, later.past ≤ index)

include above

theorem outside_of_above {k : Nat} (lower : index ≤ k) : ∀ later ∈ rest, k < later.first ∨ later.past ≤ k := by
  intro later member
  have below := above later member
  omega

/-- Lines below some operations do not see them. -/
theorem settle_below (buffer lines : List Line) :
    settle (insertedBy rest buffer) (removedBy rest) index lines = lines :=
  settle_untouched (fun _ lower _ => insertedBy_eq_nil (outside_of_above above lower))
    fun _ lower _ => removedBy_eq_false (outside_of_above above lower)

theorem settle_below_cons (operation : Operation) (buffer lines : List Line) :
    settle (insertedBy (operation :: rest) buffer) (removedBy (operation :: rest)) index lines =
      settle (insertedBy [operation] buffer) (removedBy [operation]) index lines := by
  apply settle_congr
  · intro k lower _
    rw [insertedBy_cons, insertedBy_eq_nil (outside_of_above above lower), List.append_nil]
  · intro k lower _
    rw [removedBy_cons, removedBy_eq_false (outside_of_above above lower), Bool.or_false]

end Below

/-- Applied from the bottom up, operations do what they say all at once about the buffer as it was. -/
theorem applyAll_eq_settle {operations : List Operation} {buffer : List Line}
    (descending : Descending operations) (fits : ∀ operation ∈ operations, Fits buffer operation) :
    applyAll operations buffer =
      settle (insertedBy operations buffer) (removedBy operations) 0 buffer := by
  induction operations generalizing buffer with
  | nil => exact (settle_untouched (fun _ _ _ => rfl) (fun _ _ _ => rfl)).symm
  | cons operation rest ih =>
    obtain ⟨above, descendingRest⟩ := List.pairwise_cons.mp descending
    have fitsHere := fits operation List.mem_cons_self
    have applied := apply_eq_settle fitsHere
    have buffered := List.take_append_drop operation.first buffer
    have split := settle_take_drop (insertedBy (operation :: rest) buffer) (removedBy (operation :: rest))
      operation.first buffer
    have frontLength : (buffer.take operation.first).length = min operation.first buffer.length :=
      List.length_take
    rw [settle_below_cons above] at split
    generalize settledTail : settle (insertedBy [operation] buffer) (removedBy [operation]) operation.first
      (buffer.drop operation.first) = tail at applied split
    generalize buffer.take operation.first = front at *
    -- The later operations lie inside `front`, which both buffers share.
    have restFits : ∀ later ∈ rest, Fits (front ++ tail) later := by
      intro later member
      apply (fits later (List.mem_cons_of_mem _ member)).of_past_le (above later member)
      rw [List.length_append]
      omega
    have inFront : settle (insertedBy rest (front ++ tail)) (removedBy rest) 0 front =
        settle (insertedBy (operation :: rest) buffer) (removedBy (operation :: rest)) 0 front := by
      rw [← buffered]
      exact settle_above (by omega)
    have restUntouched : settle (insertedBy rest (front ++ tail)) (removedBy rest) front.length tail =
        tail := by
      by_cases inside : operation.first ≤ buffer.length
      · have start : front.length = operation.first := by omega
        exact settle_below (start ▸ above) _ tail
      · rw [List.drop_eq_nil_of_le (by omega), settle] at settledTail
        rw [← settledTail, settle]
    calc applyAll (operation :: rest) buffer
        = applyAll rest (front ++ tail) := by rw [← applied]; rfl
      _ = settle (insertedBy rest (front ++ tail)) (removedBy rest) 0 (front ++ tail) :=
        ih descendingRest restFits
      _ = settle (insertedBy (operation :: rest) buffer) (removedBy (operation :: rest)) 0 front ++ tail := by
        rw [settle_append, inFront, Nat.zero_add, restUntouched]
      _ = settle (insertedBy (operation :: rest) buffer) (removedBy (operation :: rest)) 0 buffer := split.symm

end Operation

end RouteComments
