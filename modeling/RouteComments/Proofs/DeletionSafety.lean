import RouteComments.Proofs.PlannedBlocks
import RouteComments.Proofs.PlanOperations

set_option autoImplicit false

namespace RouteComments

open Text

namespace Operation

/-- Lines of a buffer, each with the line of the source it was, or with nothing if it was inserted. -/
abbrev Traced := List (Option Nat × Line)

namespace Traced

def buffer (traced : Traced) : List Line :=
  traced.map (·.2)

/-- Where the lines of the buffer come from. -/
def origins (traced : Traced) : List (Option Nat) :=
  traced.map (·.1)

def insertedTexts (traced : Traced) : List Text :=
  (traced.filter (·.1.isNone)).map (·.2.text)

/-- The lines of a source, each from itself. -/
def ofSource (source : List Line) : Traced :=
  source.zipIdx.map fun (line, index) => (some index, line)

def setLastEnding (ending : Ending) : Traced → Traced
  | [] => []
  | [(origin, line)] => [(origin, { line with ending })]
  | entry :: next :: rest => entry :: setLastEnding ending (next :: rest)

/-- The lines of a text as insertions. -/
def ofText (text : Text) (ending : Ending) : Traced :=
  (pieces '\n' text).map fun piece => (none, { text := piece, ending })

def apply (traced : Traced) : Operation → Traced
  | .delete range =>
    let stop := min range.stop traced.length
    traced.take (min range.start stop) ++ traced.drop stop
  | .insert line text =>
    let place := min line traced.length
    let inserted := ofText text (Document.endingAt traced.buffer place)
    if place = traced.length then traced.setLastEnding (Document.endingAt traced.buffer place) ++
      setLastEnding .none inserted
    else traced.take place ++ inserted ++ traced.drop place

@[simp] theorem buffer_append (front back : Traced) : buffer (front ++ back) = buffer front ++ buffer back :=
  List.map_append

@[simp] theorem buffer_setLastEnding (ending : Ending) (traced : Traced) :
    buffer (setLastEnding ending traced) = Operation.setLastEnding ending (buffer traced) := by
  match traced with
  | [] => rfl
  | [entry] => rfl
  | entry :: next :: rest =>
    have tail := buffer_setLastEnding ending (next :: rest)
    simp only [setLastEnding, buffer, List.map_cons, Operation.setLastEnding] at tail ⊢
    rw [tail]

/-- Forgetting where lines come from gives the operation on the buffer. -/
theorem buffer_apply (traced : Traced) (operation : Operation) :
    buffer (apply traced operation) = Operation.apply (buffer traced) operation := by
  have sameLength : traced.length = traced.buffer.length := (List.length_map _).symm
  have ofTextBuffer : ∀ text ending, buffer (ofText text ending) =
      (pieces '\n' text).map fun piece => { text := piece, ending : Line } := by
    intro text ending
    simp only [buffer, ofText, List.map_map]
    rfl
  cases operation with
  | delete range =>
    simp only [apply, Operation.apply, deleteLines, buffer_append, ← sameLength]
    simp only [buffer, List.map_take, List.map_drop]
  | insert line text =>
    simp only [apply, Operation.apply, insertLines, ← sameLength]
    split
    · simp only [buffer_append, buffer_setLastEnding, ofTextBuffer]
    · simp only [buffer_append, ofTextBuffer]
      simp only [buffer, List.map_take, List.map_drop]

theorem buffer_applyAll (operations : List Operation) (traced : Traced) :
    buffer (operations.foldl apply traced) = applyAll operations (buffer traced) := by
  induction operations generalizing traced with
  | nil => rfl
  | cons operation rest ih => rw [List.foldl_cons, ih, buffer_apply]; rfl

/-- An entry whose line is, up to the ending of the last line, the line of the source it is said to be. -/
def Faithful (source : List Line) (entry : Option Nat × Line) : Prop :=
  ∀ index, entry.1 = some index → ∃ original, source[index]? = some original ∧
    entry.2.text = original.text ∧ (index + 1 ≠ source.length → entry.2.ending = original.ending)

/-- All lines are what they are said to be, and only the last line of the source can be the last one. -/
structure Follows (source : List Line) (traced : Traced) : Prop where
  faithful : ∀ entry ∈ traced, Faithful source entry
  last : ∀ index, traced.origins.getLast? = some (some index) → index + 1 = source.length

theorem setLastEnding_faithful {source : List Line} {traced : Traced} (ending : Ending)
    (follows : Follows source traced) : ∀ entry ∈ setLastEnding ending traced, Faithful source entry := by
  obtain ⟨faithful, last⟩ := follows
  match traced with
  | [] => exact fun _ member => absurd member List.not_mem_nil
  | [(origin, line)] =>
    intro entry member index named
    rw [setLastEnding, List.mem_singleton] at member
    subst member
    obtain ⟨original, found, sameText, _⟩ := faithful (origin, line) List.mem_cons_self index named
    refine ⟨original, found, sameText, fun notLast => absurd (last index ?_) notLast⟩
    simpa [origins] using named
  | first :: next :: rest =>
    obtain ⟨firstFaithful, others⟩ := List.forall_mem_cons.mp faithful
    refine List.forall_mem_cons.mpr ⟨firstFaithful, setLastEnding_faithful ending ⟨others, ?_⟩⟩
    intro index found
    apply last index
    simpa [origins] using found

theorem ofText_inserted (text : Text) (ending : Ending) : ∀ entry ∈ ofText text ending, entry.1 = none := by
  intro entry member
  obtain ⟨piece, _, rfl⟩ := List.mem_map.mp member
  rfl

theorem origins_setLastEnding (ending : Ending) (traced : Traced) :
    origins (setLastEnding ending traced) = origins traced := by
  match traced with
  | [] => rfl
  | [entry] => rfl
  | entry :: next :: rest =>
    have tail := origins_setLastEnding ending (next :: rest)
    simp only [setLastEnding, origins, List.map_cons] at tail ⊢
    rw [tail]

theorem insertedTexts_cons (entry : Option Nat × Line) (rest : Traced) :
    insertedTexts (entry :: rest) =
      (if entry.1.isNone then [entry.2.text] else []) ++ insertedTexts rest := by
  simp only [insertedTexts, List.filter_cons]
  split <;> rfl

theorem insertedTexts_append (front back : Traced) :
    insertedTexts (front ++ back) = insertedTexts front ++ insertedTexts back := by
  simp only [insertedTexts, List.filter_append, List.map_append]

theorem insertedTexts_setLastEnding (ending : Ending) (traced : Traced) :
    insertedTexts (setLastEnding ending traced) = insertedTexts traced := by
  match traced with
  | [] => rfl
  | [entry] => simp only [setLastEnding, insertedTexts_cons]
  | entry :: next :: rest =>
    rw [setLastEnding, insertedTexts_cons, insertedTexts_setLastEnding ending (next :: rest), ← insertedTexts_cons]

theorem insertedTexts_ofText (text : Text) (ending : Ending) :
    insertedTexts (ofText text ending) = pieces '\n' text := by
  rw [insertedTexts, List.filter_eq_self.mpr, ofText, List.map_map]
  · exact List.map_id _
  · intro entry member
    rw [ofText_inserted text ending entry member]
    rfl

theorem origins_ofText (text : Text) (ending : Ending) :
    origins (ofText text ending) = (pieces '\n' text).map fun _ => none := by
  simp only [origins, ofText, List.map_map]
  rfl

theorem origins_append (front back : Traced) : origins (front ++ back) = origins front ++ origins back :=
  List.map_append

/-- An insertion adds lines without an origin in one place, wherever that is. -/
theorem origins_insert (traced : Traced) (line : Nat) (text : Text) :
    origins (apply traced (.insert line text)) =
      traced.origins.take line ++ (pieces '\n' text).map (fun _ => none) ++ traced.origins.drop line := by
  have sameLength : traced.length = traced.origins.length := (List.length_map _).symm
  simp only [apply]
  split
  · rename_i atEnd
    rw [origins_append, origins_setLastEnding, origins_setLastEnding, origins_ofText,
      List.take_of_length_le (by omega), List.drop_eq_nil_of_le (by omega), List.append_nil]
  · rename_i inside
    rw [Nat.min_eq_left (by omega), origins_append, origins_append, origins_ofText]
    simp only [origins, List.map_take, List.map_drop]

theorem insertedTexts_insert (traced : Traced) (line : Nat) (text : Text) :
    (insertedTexts (apply traced (.insert line text))).Perm (insertedTexts traced ++ pieces '\n' text) := by
  simp only [apply]
  split
  · rw [insertedTexts_append, insertedTexts_setLastEnding, insertedTexts_setLastEnding, insertedTexts_ofText]
  · generalize min line traced.length = place
    rw [insertedTexts_append, insertedTexts_append, insertedTexts_ofText]
    nth_rewrite 3 [← List.take_append_drop place traced]
    rw [insertedTexts_append, List.append_assoc, List.append_assoc]
    exact List.Perm.append_left _ List.perm_append_comm

/-- Lines without an origin are not said to be any line. -/
theorem faithful_of_inserted {source : List Line} {traced : Traced}
    (inserted : ∀ origin ∈ traced.origins, origin = none) :
    ∀ entry ∈ traced, Faithful source entry := by
  intro entry member index named
  rw [inserted entry.1 (List.mem_map_of_mem member)] at named
  cases named

theorem follows_insert {source : List Line} {traced : Traced} (follows : Follows source traced) (line : Nat)
    (text : Text) : Follows source (apply traced (.insert line text)) := by
  have unnamed : ∀ ending, ∀ origin ∈ (ofText text ending).origins, origin = none := by
    intro ending origin member
    rw [origins_ofText] at member
    obtain ⟨_, _, rfl⟩ := List.mem_map.mp member
    rfl
  constructor
  · simp only [apply]
    split
    · refine List.forall_mem_append.mpr ⟨setLastEnding_faithful _ follows, faithful_of_inserted ?_⟩
      rw [origins_setLastEnding]
      exact unnamed _
    · refine List.forall_mem_append.mpr
        ⟨List.forall_mem_append.mpr ⟨?_, faithful_of_inserted (unnamed _)⟩, ?_⟩
      · exact fun entry member => follows.faithful entry (List.mem_of_mem_take member)
      · exact fun entry member => follows.faithful entry (List.mem_of_mem_drop member)
  · intro index found
    rw [origins_insert] at found
    by_cases inside : line < traced.origins.length
    · have behind : traced.origins.drop line ≠ [] := List.drop_eq_nil_iff.not.mpr (by omega)
      rw [List.getLast?_append_of_ne_nil _ behind, List.getLast?_drop, if_neg (by omega)] at found
      exact follows.last index found
    · have added : (pieces '\n' text).map (fun _ => (none : Option Nat)) ≠ [] :=
        List.map_eq_nil_iff.not.mpr (pieces_ne_nil '\n' text)
      rw [List.drop_eq_nil_of_le (by omega), List.append_nil, List.getLast?_append_of_ne_nil _ added,
        List.getLast?_map, List.getLast?_eq_some_getLast (pieces_ne_nil '\n' text)] at found
      cases found

theorem follows_delete {source : List Line} {traced : Traced} {range : LineRange} (follows : Follows source traced)
    (bound : range.stop < traced.length) : Follows source (apply traced (.delete range)) := by
  simp only [apply, Nat.min_eq_left (Nat.le_of_lt bound)]
  constructor
  · refine List.forall_mem_append.mpr ⟨?_, ?_⟩
    · exact fun entry member => follows.faithful entry (List.mem_of_mem_take member)
    · exact fun entry member => follows.faithful entry (List.mem_of_mem_drop member)
  · intro index found
    apply follows.last index
    have behind : traced.drop range.stop ≠ [] := List.drop_eq_nil_iff.not.mpr (by omega)
    have named : origins (traced.drop range.stop) ≠ [] := List.map_eq_nil_iff.not.mpr behind
    rw [origins_append, List.getLast?_append_of_ne_nil _ named] at found
    simpa only [origins, List.getLast?_map, List.getLast?_drop, if_neg (show ¬ traced.length ≤ range.stop by omega)]
      using found

theorem origins_delete {traced : Traced} {range : LineRange} (ordered : range.start ≤ range.stop)
    (bound : range.stop ≤ traced.length) :
    origins (apply traced (.delete range)) = traced.origins.take range.start ++ traced.origins.drop range.stop := by
  simp only [apply, Nat.min_eq_left bound, Nat.min_eq_left ordered, origins, List.map_append, List.map_take,
    List.map_drop]

/-- A deletion of lines that all come from the source takes away no inserted line. -/
theorem insertedTexts_delete {traced : Traced} {range : LineRange} (ordered : range.start ≤ range.stop)
    (bound : range.stop ≤ traced.length)
    (named : ∀ origin ∈ (traced.origins.drop range.start).take (range.stop - range.start), origin.isSome = true) :
    insertedTexts (apply traced (.delete range)) = insertedTexts traced := by
  have split : traced = traced.take range.start ++ ((traced.drop range.start).take (range.stop - range.start) ++
      traced.drop range.stop) := by
    rw [← range.drop_start_eq ordered, List.take_append_drop]
  have middle : insertedTexts ((traced.drop range.start).take (range.stop - range.start)) = [] := by
    simp only [insertedTexts, List.map_eq_nil_iff, List.filter_eq_nil_iff]
    intro entry member
    have isNamed := named entry.1 (by
      simp only [origins, ← List.map_drop, ← List.map_take]
      exact List.mem_map_of_mem member)
    rw [Option.isNone_iff_eq_none]
    exact Option.isSome_iff_ne_none.mp isNamed
  simp only [apply, Nat.min_eq_left bound, Nat.min_eq_left ordered]
  conv_rhs => rw [split]
  rw [insertedTexts_append, insertedTexts_append, insertedTexts_append, middle, List.nil_append]

/-- The first `count` lines are still those of the source, and other lines follow, from `labels`. -/
structure Intact (count : Nat) (labels : List (Option Nat)) (traced : Traced) : Prop where
  shape : traced.origins = (List.range count).map some ++ labels
  more : labels ≠ []

/-- A deletion that is applied now finds its lines where the source has them. -/
def Bounded (count : Nat) : Operation → Prop
  | .delete range => range.start < range.stop ∧ range.stop ≤ count
  | .insert _ _ => True

def texts : Operation → List Text
  | .delete _ => []
  | .insert _ text => pieces '\n' text

theorem range'_split {start middle stop : Nat} (lower : start ≤ middle) (upper : middle ≤ stop) :
    List.range' start (stop - start) =
      List.range' start (middle - start) ++ List.range' middle (stop - middle) := by
  have joined : List.range' start (middle - start) ++ List.range' (start + (middle - start)) (stop - middle) = _ :=
    List.range'_append_1
  rw [Nat.add_sub_cancel' lower] at joined
  rw [joined]
  congr 1
  omega

theorem range_split {count line : Nat} (lower : line ≤ count) :
    List.range count = List.range line ++ List.range' line (count - line) := by
  rw [List.range_eq_range', List.range_eq_range']
  exact range'_split (Nat.zero_le line) lower

theorem take_drop_intact {count line : Nat} (lower : line ≤ count) (labels : List (Option Nat)) :
    ((List.range count).map some ++ labels).take line = (List.range line).map some ∧
      ((List.range count).map some ++ labels).drop line =
        (List.range' line (count - line)).map some ++ labels := by
  have length : ((List.range line).map some).length = line := by
    rw [List.length_map, List.length_range]
  rw [range_split lower, List.map_append, List.append_assoc]
  exact ⟨List.take_left' length, List.drop_left' length⟩

theorem filterMap_named (indices : List Nat) (labels : List (Option Nat)) :
    (indices.map some ++ labels).filterMap id = indices ++ labels.filterMap id := by
  rw [List.filterMap_append, List.filterMap_map]
  exact congrArg (· ++ _) List.filterMap_some

theorem filterMap_unnamed (text : Text) : ((pieces '\n' text).map fun _ => (none : Option Nat)).filterMap id = [] := by
  rw [List.filterMap_map]
  exact List.filterMap_eq_nil_iff.mpr fun _ _ => rfl

theorem Intact.length_eq {count : Nat} {labels : List (Option Nat)} {traced : Traced}
    (intact : Intact count labels traced) : traced.length = count + labels.length := by
  have sameLength : traced.length = traced.origins.length := (List.length_map _).symm
  rw [sameLength, intact.shape, List.length_append, List.length_map, List.length_range]

/-- Of the lines from the start of a range on, a deletion keeps those behind the range. -/
theorem filter_range'_delete {range : LineRange} {count : Nat} (ordered : range.start ≤ range.stop)
    (bound : range.stop ≤ count) :
    (List.range' range.start (count - range.start)).filter (!removes · (.delete range)) =
      List.range' range.stop (count - range.stop) := by
  rw [range'_split ordered bound, List.filter_append, List.filter_eq_nil_iff.mpr, List.filter_eq_self.mpr,
    List.nil_append]
  · intro line member
    rw [List.mem_range'_1] at member
    simp only [removes, LineRange.contains, Bool.not_eq_true', Bool.and_eq_false_iff, decide_eq_false_iff_not]
    omega
  · intro line member
    rw [List.mem_range'_1] at member
    simp only [removes, LineRange.contains, Bool.not_eq_true', Bool.and_eq_false_iff, decide_eq_false_iff_not]
    omega

/-- What one operation leaves intact, and what becomes of the lines from there on. -/
theorem intact_apply {count : Nat} {labels : List (Option Nat)} {traced : Traced} {operation : Operation}
    (intact : Intact count labels traced) (bounded : Bounded count operation) :
    ∃ others, Intact (min count operation.first) others (apply traced operation) ∧
      others.filterMap id =
        (List.range' (min count operation.first) (count - min count operation.first)).filter
          (!removes · operation) ++ labels.filterMap id := by
  have length := intact.length_eq
  obtain ⟨shape, more⟩ := intact
  cases operation with
  | delete range =>
    obtain ⟨holds, bound⟩ := bounded
    simp only [first, Nat.min_eq_right (show range.start ≤ count by omega)]
    refine ⟨(List.range' range.stop (count - range.stop)).map some ++ labels, ⟨?_, ?_⟩, ?_⟩
    · rw [origins_delete (by omega) (by omega), shape, (take_drop_intact (by omega) labels).1,
        (take_drop_intact bound labels).2]
    · exact List.append_ne_nil_of_right_ne_nil _ more
    · rw [filterMap_named, filter_range'_delete (by omega) bound]
  | insert line text =>
    simp only [first, removes, Bool.not_false, List.filter_true]
    by_cases inside : line ≤ count
    · rw [Nat.min_eq_right inside]
      refine ⟨(pieces '\n' text).map (fun _ => none) ++ ((List.range' line (count - line)).map some ++ labels),
        ⟨?_, ?_⟩, ?_⟩
      · rw [origins_insert, shape, (take_drop_intact inside labels).1, (take_drop_intact inside labels).2,
          List.append_assoc]
      · exact List.append_ne_nil_of_right_ne_nil _ (List.append_ne_nil_of_right_ne_nil _ more)
      · rw [List.filterMap_append, filterMap_unnamed, filterMap_named, List.nil_append]
    · have named : ((List.range count).map some).length = count := by
        rw [List.length_map, List.length_range]
      rw [Nat.min_eq_left (by omega), Nat.sub_self]
      refine ⟨labels.take (line - count) ++ ((pieces '\n' text).map (fun _ => none) ++ labels.drop (line - count)),
        ⟨?_, ?_⟩, ?_⟩
      · rw [origins_insert, shape, List.take_append, List.drop_append, named, List.take_of_length_le (by omega),
          List.drop_eq_nil_of_le (by omega), List.nil_append, List.append_assoc, List.append_assoc]
      · apply List.append_ne_nil_of_right_ne_nil
        apply List.append_ne_nil_of_left_ne_nil
        exact List.map_eq_nil_iff.not.mpr (pieces_ne_nil '\n' text)
      · rw [List.filterMap_append, List.filterMap_append, filterMap_unnamed, List.nil_append,
          ← List.filterMap_append, List.take_append_drop]
        rfl

theorem insertedTexts_apply {count : Nat} {labels : List (Option Nat)} {traced : Traced} {operation : Operation}
    (intact : Intact count labels traced) (bounded : Bounded count operation) :
    (insertedTexts (apply traced operation)).Perm (insertedTexts traced ++ texts operation) := by
  have length := intact.length_eq
  cases operation with
  | delete range =>
    obtain ⟨holds, bound⟩ := bounded
    rw [texts, List.append_nil, insertedTexts_delete (by omega) (by omega)]
    intro origin member
    rw [intact.shape, (take_drop_intact (by omega) labels).2, List.take_append_of_le_length] at member
    · obtain ⟨index, _, rfl⟩ := List.mem_map.mp (List.mem_of_mem_take member)
      rfl
    · rw [List.length_map, List.length_range']
      omega
  | insert line text => exact insertedTexts_insert traced line text

theorem follows_apply {source : List Line} {count : Nat} {labels : List (Option Nat)} {traced : Traced}
    {operation : Operation} (follows : Follows source traced) (intact : Intact count labels traced)
    (bounded : Bounded count operation) : Follows source (apply traced operation) := by
  cases operation with
  | delete range =>
    apply follows_delete follows
    have length := intact.length_eq
    have more := List.length_pos_of_ne_nil intact.more
    have bound := bounded.2
    omega
  | insert line text => exact follows_insert follows line text

/-- Of the first lines, an operation decides those from its first line on, and the later ones the others. -/
theorem filter_removedBy_cons {operation : Operation} {rest : List Operation} {count : Nat}
    (bounded : ∀ later ∈ rest, Bounded (min count operation.first) later) :
    (List.range count).filter (!removedBy (operation :: rest) ·) =
      (List.range (min count operation.first)).filter (!removedBy rest ·) ++
        (List.range' (min count operation.first) (count - min count operation.first)).filter
          (!removes · operation) := by
  rw [range_split (Nat.min_le_left count operation.first), List.filter_append]
  congr 1
  · apply List.filter_congr
    intro line member
    rw [List.mem_range] at member
    have outside : ∀ other ∈ [operation], line < other.first ∨ other.past ≤ line := by
      simp only [List.mem_singleton, forall_eq]
      omega
    rw [removedBy_cons, removedBy_eq_false outside, Bool.false_or]
  · apply List.filter_congr
    intro line member
    rw [List.mem_range'_1] at member
    have kept : removedBy rest line = false := by
      simp only [removedBy, List.any_eq_false, Bool.not_eq_true]
      intro later laterMember
      cases later with
      | insert place text => rfl
      | delete range =>
        have bound := (bounded _ laterMember).2
        exact removes_eq_false (.inr (show range.stop ≤ line by omega))
    rw [removedBy_cons, kept, Bool.or_false, removedBy, List.any_cons, List.any_nil, Bool.or_false]

/-- A run in order of application keeps what no deletion covers, in order, and adds what it inserts. -/
theorem foldl_apply_spec {source : List Line} {operations : List Operation} {count : Nat}
    {labels : List (Option Nat)} {traced : Traced} (safe : operations.Pairwise SafeBefore)
    (bounded : ∀ operation ∈ operations, Bounded count operation) (intact : Intact count labels traced)
    (follows : Follows source traced) :
    Follows source (operations.foldl apply traced) ∧
      (operations.foldl apply traced).origins.filterMap id =
        (List.range count).filter (!removedBy operations ·) ++ labels.filterMap id ∧
      (insertedTexts (operations.foldl apply traced)).Perm
        (insertedTexts traced ++ operations.flatMap texts) := by
  induction operations generalizing count labels traced with
  | nil =>
    refine ⟨follows, ?_, ?_⟩
    · rw [List.foldl_nil, intact.shape, filterMap_named]
      exact congrArg (· ++ _) (List.filter_true _).symm
    · rw [List.foldl_nil, List.flatMap_nil, List.append_nil]
  | cons operation rest ih =>
    obtain ⟨above, safeRest⟩ := List.pairwise_cons.mp safe
    obtain ⟨boundedHere, boundedRest⟩ := List.forall_mem_cons.mp bounded
    obtain ⟨others, intactNext, named⟩ := intact_apply intact boundedHere
    have boundedNext : ∀ later ∈ rest, Bounded (min count operation.first) later := by
      intro later member
      have order := above later member
      have bound := boundedRest later member
      cases later with
      | insert line text => trivial
      | delete range => exact ⟨bound.1, Nat.le_min.mpr ⟨bound.2, order⟩⟩
    obtain ⟨followsEnd, origins, inserted⟩ :=
      ih safeRest boundedNext intactNext (follows_apply follows intact boundedHere)
    refine ⟨followsEnd, ?_, ?_⟩
    · rw [List.foldl_cons, origins, named, filter_removedBy_cons boundedNext, List.append_assoc]
    · rw [List.foldl_cons, List.flatMap_cons, ← List.append_assoc]
      exact inserted.trans ((insertedTexts_apply intact boundedHere).append_right _)

theorem origins_ofSource (source : List Line) : origins (ofSource source) = (List.range source.length).map some := by
  simp only [origins, ofSource, List.map_map, List.range_eq_range', ← List.zipIdx_map_snd]
  rfl

theorem buffer_ofSource (source : List Line) : buffer (ofSource source) = source := by
  simp only [buffer, ofSource, List.map_map]
  exact List.zipIdx_map_fst 0 source

theorem insertedTexts_ofSource (source : List Line) : insertedTexts (ofSource source) = [] := by
  simp only [insertedTexts, ofSource, List.map_eq_nil_iff, List.filter_eq_nil_iff]
  intro entry member
  obtain ⟨place, _, rfl⟩ := List.mem_map.mp member
  exact Bool.false_ne_true

theorem follows_ofSource (source : List Line) : Follows source (ofSource source) := by
  constructor
  · intro entry member index named
    obtain ⟨⟨line, place⟩, found, rfl⟩ := List.mem_map.mp member
    obtain rfl : place = index := Option.some.inj named
    exact ⟨line, List.mk_mem_zipIdx_iff_getElem?.mp found, rfl, fun _ => rfl⟩
  · intro index found
    rw [origins_ofSource, List.getLast?_map, List.getLast?_range] at found
    split at found
    · cases found
    · cases found
      omega

/-- Before the first operation all lines but the last are intact, and the last one follows. -/
theorem intact_ofSource {source : List Line} (filled : source ≠ []) :
    Intact (source.length - 1) [some (source.length - 1)] (ofSource source) := by
  have positive := List.length_pos_of_ne_nil filled
  refine ⟨?_, List.cons_ne_nil _ _⟩
  rw [origins_ofSource, range_split (show source.length - 1 ≤ source.length by omega), List.map_append]
  rw [show source.length - (source.length - 1) = 1 by omega]
  rfl

end Traced

end Operation

namespace Plan

open Operation Operation.Traced

theorem perm_flatMap_addAt {α : Type} (line : Nat) (items : List α) (entries : List (Nat × List α)) :
    ((addAt line items entries).flatMap (·.2)).Perm (entries.flatMap (·.2) ++ items) := by
  induction entries with
  | nil => simp only [addAt, List.flatMap_cons, List.flatMap_nil, List.append_nil, List.nil_append, List.Perm.refl]
  | cons next rest ih =>
    obtain ⟨other, found⟩ := next
    rw [addAt]
    split
    · simp only [List.flatMap_cons, List.append_assoc]
      exact List.Perm.append_left found List.perm_append_comm
    · split
      · simp only [List.flatMap_cons]
        exact List.perm_append_comm
      · simp only [List.flatMap_cons, List.append_assoc]
        exact ih.append_left found

theorem perm_flatMap_commentsByLine (plan : Plan) :
    (plan.commentsByLine.flatMap (·.2)).Perm (plan.flatMap Block.comments) := by
  suffices run : ∀ (blocks : Plan) (found : List (Nat × List Text)),
      ((blocks.foldl (fun found block =>
        if block.comments.isEmpty then found else addComments block.line block.comments found) found).flatMap
          (·.2)).Perm (found.flatMap (·.2) ++ blocks.flatMap Block.comments) from run plan []
  intro blocks
  induction blocks with
  | nil =>
    intro found
    rw [List.foldl_nil, List.flatMap_nil, List.append_nil]
  | cons block rest ih =>
    intro found
    rw [List.foldl_cons, List.flatMap_cons]
    refine (ih _).trans ?_
    rw [← List.append_assoc]
    refine List.Perm.append_right _ ?_
    split
    · rename_i empty
      rw [List.isEmpty_iff.mp empty, List.append_nil]
    · rw [addComments_eq_addAt]
      exact perm_flatMap_addAt block.line block.comments found

/-- The lines that the operations of a plan insert are the lines of its comments. -/
theorem perm_texts_orderedOperations (plan : Plan) :
    (plan.orderedOperations.flatMap texts).Perm (plan.flatMap fun block => block.comments.flatMap (pieces '\n')) := by
  have filled := (commentsByLine_spec plan).2.2
  have ofDeletions : ((LineRange.union (plan.map (·.stale))).map Operation.delete).flatMap texts = [] := by
    rw [List.flatMap_map]
    exact List.flatMap_eq_nil_iff.mpr fun _ _ => rfl
  have ofInsertions : plan.operations.flatMap texts =
      (plan.commentsByLine.flatMap (·.2)).flatMap (pieces '\n') := by
    rw [operations, List.flatMap_append, ofDeletions, List.nil_append, List.flatMap_map, List.flatMap_assoc]
    exact List.flatMap_congr fun entry member => pieces_joinWith '\n' (filled entry member)
  refine ((order_perm plan.operations).flatMap_right texts).trans ?_
  rw [ofInsertions, ← List.flatMap_assoc]
  exact (perm_flatMap_commentsByLine plan).flatMap_right _

theorem bounded_orderedOperations (doc : Document) (baseUrl : Text) :
    ∀ operation ∈ (ofDocument doc baseUrl).orderedOperations, Bounded (doc.lines.length - 1) operation := by
  intro operation member
  rcases mem_operations.mp ((order_perm _).mem_iff.mp member) with ⟨range, rangeMember, rfl⟩ | ⟨line, _, rfl⟩
  · refine ⟨(LineRange.union_spec _).1.filled range rangeMember, ?_⟩
    obtain ⟨source, sourceMember, sameStop, _⟩ := LineRange.stop_of_mem_union rangeMember
    obtain ⟨block, planned, rfl⟩ := List.mem_map.mp sourceMember
    have bound := line_lt planned
    rw [← sameStop, stale_stop planned]
    omega
  · trivial

/-- A stale line is one of an unbroken run of generated comments that ends directly above a mapping. -/
theorem run_of_marksStale {doc : Document} {baseUrl : Text} {index : Nat}
    (stale : (ofDocument doc baseUrl).marksStale index = true) :
    ∃ occurrence ∈ Mapping.methodMappings doc.text, index < doc.lineOfOffset occurrence.offset ∧
      ∀ place, index ≤ place → place < doc.lineOfOffset occurrence.offset →
        ∃ text, doc.lineText? place = some text ∧ Comment.isGenerated text = true := by
  obtain ⟨block, planned, inside⟩ := List.any_eq_true.mp stale
  have stop := stale_stop planned
  have bounds := LineRange.contains_iff.mp inside
  obtain ⟨occurrence, member, sameLine⟩ := line_eq planned
  refine ⟨occurrence, member, by omega, ?_⟩
  intro place lower upper
  have inRun : block.stale.contains place = true := LineRange.contains_iff.mpr ⟨by omega, by omega⟩
  rw [stale_eq planned] at inRun
  obtain ⟨text, found, generated⟩ := Comment.isGenerated_of_stale inRun
  refine ⟨text, ?_, generated⟩
  simpa only [Document.lineText?, Document.lineTexts, List.getElem?_map] using found

/-- A run of the plan of a document ends with the lines that are not stale, in order, and the lines of the planned
comments between them. -/
theorem planned_run (doc : Document) (baseUrl : Text) :
    let traced := (ofDocument doc baseUrl).orderedOperations.foldl Traced.apply (ofSource doc.lines)
    Follows doc.lines traced ∧
      traced.filterMap (·.1) = (List.range doc.lines.length).filter (!(ofDocument doc baseUrl).marksStale ·) ∧
      traced.insertedTexts.Perm
        ((ofDocument doc baseUrl).flatMap fun block => block.comments.flatMap (pieces '\n')) := by
  have filled : doc.lines ≠ [] := Line.read_ne_nil doc.text
  obtain ⟨follows, origins, inserted⟩ := foldl_apply_spec (orderedOperations_safe (ofDocument doc baseUrl))
    (bounded_orderedOperations doc baseUrl) (intact_ofSource filled) (follows_ofSource doc.lines)
  refine ⟨follows, ?_, ?_⟩
  · rw [Traced.origins, List.filterMap_map] at origins
    refine origins.trans ?_
    have positive := List.length_pos_of_ne_nil filled
    rw [range_split (show doc.lines.length - 1 ≤ doc.lines.length by omega), List.filter_append,
      show doc.lines.length - (doc.lines.length - 1) = 1 by omega, List.range'_one, List.filter_singleton,
      (anchored_ofDocument doc baseUrl).last_not_stale, Bool.not_false, cond_true]
    congr 1
    exact List.filter_congr fun line _ => congrArg (!·) (removedBy_orderedOperations _ line)
  · rw [insertedTexts_ofSource, List.nil_append] at inserted
    exact inserted.trans (perm_texts_orderedOperations _)

/-- Applying the plan of a document keeps every line that is not stale, in order, with its text and, but for the
last line, its ending, and adds the lines of the planned comments and no others. -/
theorem exists_trace (doc : Document) (baseUrl : Text) :
    ∃ traced : Traced,
      traced.buffer = applyAll (ofDocument doc baseUrl).orderedOperations doc.lines ∧
      traced.filterMap (·.1) =
        (List.range doc.lines.length).filter (!(ofDocument doc baseUrl).marksStale ·) ∧
      (∀ index line, (some index, line) ∈ traced → ∃ original, doc.lines[index]? = some original ∧
        line.text = original.text ∧ (index + 1 ≠ doc.lines.length → line.ending = original.ending)) ∧
      traced.insertedTexts.Perm
        ((ofDocument doc baseUrl).flatMap fun block => block.comments.flatMap (pieces '\n')) := by
  obtain ⟨follows, kept, inserted⟩ := planned_run doc baseUrl
  refine ⟨(ofDocument doc baseUrl).orderedOperations.foldl Traced.apply (ofSource doc.lines), ?_, kept, ?_, inserted⟩
  · rw [buffer_applyAll, buffer_ofSource]
  · exact fun index line member => follows.faithful (some index, line) member index rfl

/-- Applying the plan of a document keeps every line that is not stale, adds the lines of the planned comments and
no others, and removes only generated comments that stand in an unbroken run directly above a mapping. -/
theorem planned_edit_frame (doc : Document) (baseUrl : Text) :
    ∃ traced : Traced,
      traced.buffer = applyAll (ofDocument doc baseUrl).orderedOperations doc.lines ∧
      traced.filterMap (·.1) =
        (List.range doc.lines.length).filter (!(ofDocument doc baseUrl).marksStale ·) ∧
      (∀ index line, (some index, line) ∈ traced → ∃ original, doc.lines[index]? = some original ∧
        line.text = original.text ∧ (index + 1 ≠ doc.lines.length → line.ending = original.ending)) ∧
      traced.insertedTexts.Perm
        ((ofDocument doc baseUrl).flatMap fun block => block.comments.flatMap (pieces '\n')) ∧
      ∀ index, (ofDocument doc baseUrl).marksStale index = true →
        ∃ occurrence ∈ Mapping.methodMappings doc.text, index < doc.lineOfOffset occurrence.offset ∧
          ∀ place, index ≤ place → place < doc.lineOfOffset occurrence.offset →
            ∃ text, doc.lineText? place = some text ∧ Comment.isGenerated text = true := by
  obtain ⟨traced, buffer, kept, faithful, inserted⟩ := exists_trace doc baseUrl
  exact ⟨traced, buffer, kept, faithful, inserted, fun index stale => run_of_marksStale stale⟩

end Plan

end RouteComments
