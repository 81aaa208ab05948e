import Mathlib.Algebra.Ring.Nat
import Mathlib.Data.List.Induction
import RouteComments.Editor.TextEdit
import RouteComments.Proofs.ApplicationOrder
import RouteComments.Proofs.PlanOperations
import RouteComments.Proofs.PlannedBlocks

set_option autoImplicit false

namespace RouteComments.Editor.TextEdit

open Text Operation

/-- What an editor makes of the lines from `place` on: up to the first edit they stay, the lines of the edit give way
to its text, and the other edits follow. -/
def applyFrom (lines : List Line) (place : Nat) : List TextEdit → Text
  | [] => Line.render (lines.drop place)
  | edit :: rest =>
    Line.render ((lines.take edit.range.start.line.toNat).drop place) ++ edit.newText ++
      applyFrom lines edit.range.stop.line.toNat rest

/-- The text of a document after edits of whole lines, none of which overlap. -/
def applyTo (doc : Document) (edits : List TextEdit) : Text :=
  applyFrom doc.lines 0 edits

section Gathered

theorem addInsertion_eq_addAt (line : Nat) (text : Text) (found : List (Nat × Text)) :
    addInsertion line text found = addAt line text found := by
  induction found with
  | nil => rfl
  | cons next rest ih => rw [addInsertion, addAt, ih]

theorem terminated_eq_render (ending : Ending) (text : Text) :
    terminated ending text = Line.render ((pieces '\n' text).map fun piece => { text := piece, ending }) := by
  rw [terminated]
  induction pieces '\n' text with
  | nil => rfl
  | cons piece rest ih => rw [List.flatMap_cons, List.map_cons, Line.render_cons, ih]

theorem terminated_ne_nil (ending : Ending) (text : Text) (breaks : ending.breaksLine = true) :
    terminated ending text ≠ [] := by
  obtain ⟨first, rest, parts⟩ := List.exists_cons_of_ne_nil (pieces_ne_nil '\n' text)
  rw [terminated, parts, List.flatMap_cons]
  cases ending <;> simp_all [Ending.text, Ending.breaksLine]

theorem insertions_delete (doc : Document) (operations : List Operation) (range : LineRange) :
    insertions doc (operations ++ [.delete range]) = insertions doc operations := by
  rw [insertions, List.foldl_append]
  rfl

theorem insertions_insert (doc : Document) (operations : List Operation) (line : Nat) (text : Text) :
    insertions doc (operations ++ [.insert line text]) =
      addAt line (terminated (Document.endingAt doc.lines line) text) (insertions doc operations) := by
  rw [insertions, List.foldl_append, ← addInsertion_eq_addAt]
  rfl

/-- The gathered insertions are sorted by line, and the text at a line is that of the lines inserted there. -/
theorem insertions_spec (doc : Document) (operations : List Operation) :
    Ascending (insertions doc operations) ∧
      (∀ line, itemsAt (insertions doc operations) line = Line.render (insertedBy operations doc.lines line)) ∧
      ∀ entry ∈ insertions doc operations, entry.2 ≠ [] := by
  induction operations using List.reverseRecOn with
  | nil => exact ⟨List.Pairwise.nil, fun _ => rfl, fun _ member => absurd member List.not_mem_nil⟩
  | append_singleton operations operation ih =>
    obtain ⟨ascending, items, filled⟩ := ih
    have split : ∀ line, insertedBy (operations ++ [operation]) doc.lines line =
        insertedBy operations doc.lines line ++
          ((textsAt line operation).map fun text => { text, ending := Document.endingAt doc.lines line : Line }) := by
      intro line
      rw [insertedBy, List.flatMap_append, List.map_append, List.flatMap_singleton]
      rfl
    cases operation with
    | delete range =>
      rw [insertions_delete]
      refine ⟨ascending, fun line => ?_, filled⟩
      rw [items, split, textsAt, List.map_nil, List.append_nil]
    | insert place text =>
      have written := terminated_ne_nil (Document.endingAt doc.lines place) text (Ending.forInsertion_breaksLine _ _)
      rw [insertions_insert]
      refine ⟨addAt_ascending _ _ ascending, fun line => ?_, addAt_filled written filled⟩
      rw [itemsAt_addAt _ _ ascending, items, split, Line.render_append, textsAt]
      by_cases here : place = line
      · rw [if_pos here, if_pos here, terminated_eq_render, here]
      · rw [if_neg here, if_neg here]
        rfl

theorem stop_of_putDeletion (range : LineRange) (found : List LineRange) :
    ∃ other ∈ putDeletion range found, other.stop = range.stop := by
  induction found with
  | nil => exact ⟨range, List.mem_cons_self, rfl⟩
  | cons next rest ih =>
    rw [putDeletion]
    split
    · exact ⟨range, List.mem_cons_self, rfl⟩
    · split
      · exact ⟨range, List.mem_cons_self, rfl⟩
      · obtain ⟨other, member, same⟩ := ih
        exact ⟨other, List.mem_cons_of_mem _ member, same⟩

theorem stop_stays_putDeletion {range other : LineRange} {found : List LineRange} (member : other ∈ found) :
    ∃ kept ∈ putDeletion range found, kept.stop = other.stop := by
  induction found with
  | nil => exact absurd member List.not_mem_nil
  | cons next rest ih =>
    rw [putDeletion]
    split
    · rename_i same
      rcases List.mem_cons.mp member with rfl | member
      · exact ⟨range, List.mem_cons_self, same.symm⟩
      · exact ⟨other, List.mem_cons_of_mem _ member, rfl⟩
    · split
      · exact ⟨other, List.mem_cons_of_mem _ member, rfl⟩
      · rcases List.mem_cons.mp member with rfl | member
        · exact ⟨other, List.mem_cons_self, rfl⟩
        · obtain ⟨kept, keptMember, same⟩ := ih member
          exact ⟨kept, List.mem_cons_of_mem _ keptMember, same⟩

theorem mem_putDeletion {range other : LineRange} {found : List LineRange} (member : other ∈ putDeletion range found) :
    other = range ∨ other ∈ found := by
  induction found with
  | nil => exact .inl (List.mem_singleton.mp member)
  | cons next rest ih =>
    rw [putDeletion] at member
    split at member
    · exact (List.mem_cons.mp member).imp id (List.mem_cons_of_mem _)
    · split at member
      · exact List.mem_cons.mp member
      · rcases List.mem_cons.mp member with rfl | member
        · exact .inr List.mem_cons_self
        · exact (ih member).imp id (List.mem_cons_of_mem _)

/-- The lines that an operation removes, if it removes any. -/
def removedLines? : Operation → Option LineRange
  | .delete range => if range.isEmpty then none else some range
  | .insert _ _ => none

theorem removedLines?_eq_some {operation : Operation} {range : LineRange} :
    removedLines? operation = some range ↔ operation = .delete range ∧ range.isEmpty = false := by
  cases operation with
  | insert line text => exact iff_of_false (fun found => nomatch found) (fun same => nomatch same.1)
  | delete other =>
    rw [removedLines?, Operation.delete.injEq]
    split
    · rename_i empty
      exact iff_of_false (fun found => nomatch found) (fun ⟨same, holds⟩ => by simp [← same, empty] at holds)
    · rename_i holds
      rw [Option.some.injEq]
      exact ⟨fun same => ⟨same, by simpa [← same] using holds⟩, fun same => same.1⟩

theorem deletions_eq_foldl (operations : List Operation) :
    deletions operations =
      (operations.filterMap removedLines?).foldl (fun found range => putDeletion range found) [] := by
  rw [List.foldl_filterMap, deletions]
  congr 1
  funext found operation
  cases operation with
  | insert line text => rfl
  | delete range =>
    rw [removedLines?]
    by_cases empty : range.isEmpty = true
    · simp only [empty, if_true]
    · simp only [empty, if_false, Bool.false_eq_true]

theorem mem_of_mem_foldl_putDeletion {ranges found : List LineRange} {range : LineRange}
    (member : range ∈ ranges.foldl (fun found range => putDeletion range found) found) :
    range ∈ ranges ∨ range ∈ found := by
  induction ranges generalizing found with
  | nil => exact .inr member
  | cons next rest ih =>
    rcases ih member with later | added
    · exact .inl (List.mem_cons_of_mem _ later)
    · rcases mem_putDeletion added with rfl | old
      · exact .inl List.mem_cons_self
      · exact .inr old

theorem stop_of_foldl_putDeletion {ranges found : List LineRange} {range : LineRange}
    (member : range ∈ ranges ∨ range ∈ found) :
    ∃ other ∈ ranges.foldl (fun found range => putDeletion range found) found, other.stop = range.stop := by
  induction ranges generalizing found range with
  | nil => exact ⟨range, member.resolve_left List.not_mem_nil, rfl⟩
  | cons next rest ih =>
    have here : (∃ other ∈ putDeletion next found, other.stop = range.stop) ∨ range ∈ rest := by
      rcases member with member | old
      · rcases List.mem_cons.mp member with rfl | later
        · exact .inl (stop_of_putDeletion range found)
        · exact .inr later
      · exact .inl (stop_stays_putDeletion old)
    rcases here with ⟨other, otherMember, same⟩ | later
    · obtain ⟨last, lastMember, sameLast⟩ := ih (.inr otherMember)
      exact ⟨last, lastMember, sameLast.trans same⟩
    · exact ih (.inl later)

/-- The gathered deletions are deletions of the operations, and one of them ends where any deletion ends. -/
theorem deletions_spec (operations : List Operation) :
    (∀ range ∈ deletions operations, .delete range ∈ operations ∧ range.isEmpty = false) ∧
      ∀ range, .delete range ∈ operations → range.isEmpty = false →
        ∃ other ∈ deletions operations, other.stop = range.stop := by
  rw [deletions_eq_foldl]
  constructor
  · intro range member
    have among := (mem_of_mem_foldl_putDeletion member).resolve_right List.not_mem_nil
    obtain ⟨operation, operationMember, found⟩ := List.mem_filterMap.mp among
    obtain ⟨rfl, holds⟩ := removedLines?_eq_some.mp found
    exact ⟨operationMember, holds⟩
  · intro range member holds
    exact stop_of_foldl_putDeletion
      (.inl (List.mem_filterMap.mpr ⟨_, member, removedLines?_eq_some.mpr ⟨rfl, holds⟩⟩))

end Gathered

section Walk

def firstLine (deleted : List LineRange) (line : Nat) : Nat :=
  ((deleted.find? (·.stop = line)).map (·.start)).getD line

theorem toNat_start_ofInsertion {deleted : List LineRange} {line : Nat} (text : Text)
    (small : firstLine deleted line < 2 ^ 32) :
    (ofInsertion deleted line text).range.start.line.toNat = firstLine deleted line :=
  UInt32.toNat_ofNat_of_lt' small

theorem toNat_stop_ofInsertion {deleted : List LineRange} {line : Nat} (text : Text) (small : line < 2 ^ 32) :
    (ofInsertion deleted line text).range.stop.line.toNat = line :=
  UInt32.toNat_ofNat_of_lt' small

variable {inserted : Nat → List Line} {removed : Nat → Bool}

theorem settle_drop_split {lines : List Line} {place next : Nat} (forward : place ≤ next)
    (inside : next ≤ lines.length) :
    settle inserted removed place (lines.drop place) =
      settle inserted removed place ((lines.take next).drop place) ++
        settle inserted removed next (lines.drop next) := by
  have split : lines.drop place = (lines.take next).drop place ++ lines.drop next := by
    rw [← List.drop_append_of_le_length (by rw [List.length_take]; omega), List.take_append_drop]
  rw [split, settle_append]
  congr 2
  rw [List.length_drop, List.length_take]
  omega

/-- The insertions from a line on, with the stale lines directly above each, are all that happens to the lines. -/
structure Describes (entries : List (Nat × Text)) (deleted : List LineRange) (lines : List Line)
    (inserted : Nat → List Line) (removed : Nat → Bool) (place : Nat) : Prop where
  inside : ∀ entry ∈ entries,
    place ≤ firstLine deleted entry.1 ∧ firstLine deleted entry.1 ≤ entry.1 ∧ entry.1 < lines.length
  spaced : entries.Pairwise fun earlier later => earlier.1 < firstLine deleted later.1
  absent : ∀ line, place ≤ line → (∀ entry ∈ entries, entry.1 ≠ line) → inserted line = []
  present : ∀ entry ∈ entries, entry.2 = Line.render (inserted entry.1)
  stale : ∀ line, place ≤ line →
    (removed line = true ↔ ∃ entry ∈ entries, firstLine deleted entry.1 ≤ line ∧ line < entry.1)

section Step

variable {entries : List (Nat × Text)} {deleted : List LineRange} {lines : List Line} {place line : Nat} {text : Text}

theorem Describes.settle_nil (describes : Describes [] deleted lines inserted removed place) :
    settle inserted removed place (lines.drop place) = lines.drop place := by
  apply settle_untouched
  · exact fun line lower _ => describes.absent line lower fun _ member => absurd member List.not_mem_nil
  · intro line lower _
    rw [Bool.eq_false_iff, ne_eq, describes.stale line lower]
    rintro ⟨_, member, _⟩
    exact absurd member List.not_mem_nil

theorem Describes.bounds (describes : Describes ((line, text) :: entries) deleted lines inserted removed place) :
    place ≤ firstLine deleted line ∧ firstLine deleted line ≤ line ∧ line < lines.length :=
  describes.inside (line, text) List.mem_cons_self

theorem Describes.beyond (describes : Describes ((line, text) :: entries) deleted lines inserted removed place) :
    ∀ other ∈ entries, line < firstLine deleted other.1 ∧ firstLine deleted other.1 ≤ other.1 :=
  fun other member => ⟨(List.pairwise_cons.mp describes.spaced).1 other member,
    (describes.inside other (List.mem_cons_of_mem _ member)).2.1⟩

theorem Describes.none_before (describes : Describes ((line, text) :: entries) deleted lines inserted removed place) :
    ∀ k, place ≤ k → k < line → inserted k = [] := by
  intro k placed before
  apply describes.absent k placed
  intro other member
  rcases List.mem_cons.mp member with rfl | member
  · exact Nat.ne_of_gt before
  · have bounds := describes.beyond other member
    omega

/-- Up to the stale lines of the first insertion nothing changes. -/
theorem Describes.settle_kept (describes : Describes ((line, text) :: entries) deleted lines inserted removed place) :
    settle inserted removed place ((lines.take (firstLine deleted line)).drop place) =
      (lines.take (firstLine deleted line)).drop place := by
  obtain ⟨lower, ordered, bound⟩ := describes.bounds
  have length : ((lines.take (firstLine deleted line)).drop place).length = firstLine deleted line - place := by
    rw [List.length_drop, List.length_take]
    omega
  apply settle_untouched
  · exact fun k placed upper => describes.none_before k placed (by omega)
  · intro k placed upper
    rw [Bool.eq_false_iff, ne_eq, describes.stale k placed]
    rintro ⟨other, member, start, _⟩
    rcases List.mem_cons.mp member with rfl | member
    · dsimp only at start
      omega
    · have bounds := describes.beyond other member
      omega

/-- The stale lines of the first insertion go away. -/
theorem Describes.settle_gone (describes : Describes ((line, text) :: entries) deleted lines inserted removed place) :
    settle inserted removed (firstLine deleted line) ((lines.take line).drop (firstLine deleted line)) = [] := by
  obtain ⟨lower, ordered, bound⟩ := describes.bounds
  have length : ((lines.take line).drop (firstLine deleted line)).length = line - firstLine deleted line := by
    rw [List.length_drop, List.length_take]
    omega
  apply settle_removed
  · exact fun k placed upper => describes.none_before k (by omega) (by omega)
  · intro k placed upper
    rw [describes.stale k (by omega)]
    exact ⟨(line, text), List.mem_cons_self, placed, show k < line by omega⟩

theorem settle_insertion (bound : line < lines.length) :
    settle inserted removed line (lines.drop line) =
      inserted line ++ settle (fun k => if k = line then [] else inserted k) removed line (lines.drop line) := by
  rw [List.drop_eq_getElem_cons bound, settle, settle, List.append_assoc, if_pos rfl, List.nil_append]
  congr 2
  apply settle_congr
  · exact fun k above _ => (if_neg (by omega)).symm
  · exact fun k _ _ => rfl

/-- The walk goes on at the line of the first insertion, which is done and must not be seen again. -/
theorem Describes.tail (describes : Describes ((line, text) :: entries) deleted lines inserted removed place) :
    Describes entries deleted lines (fun k => if k = line then [] else inserted k) removed line where
  inside other member := ⟨Nat.le_of_lt (describes.beyond other member).1,
    (describes.inside other (List.mem_cons_of_mem _ member)).2⟩
  spaced := (List.pairwise_cons.mp describes.spaced).2
  absent k above others := by
    obtain ⟨lower, ordered, _⟩ := describes.bounds
    split
    · rfl
    · rename_i different
      apply describes.absent k (by omega)
      intro other member
      rcases List.mem_cons.mp member with rfl | member
      · exact fun same => different same.symm
      · exact others other member
  present other member := by
    have bounds := describes.beyond other member
    rw [describes.present other (List.mem_cons_of_mem _ member), if_neg (by omega)]
  stale k above := by
    obtain ⟨lower, ordered, _⟩ := describes.bounds
    rw [describes.stale k (by omega)]
    constructor
    · rintro ⟨other, member, start, before⟩
      rcases List.mem_cons.mp member with rfl | member
      · dsimp only at before
        omega
      · exact ⟨other, member, start, before⟩
    · rintro ⟨other, member, bounds⟩
      exact ⟨other, List.mem_cons_of_mem _ member, bounds⟩

/-- An editor walking over the insertions makes the lines that settle. -/
theorem Describes.applyFrom_eq (describes : Describes entries deleted lines inserted removed place)
    (short : lines.length < 2 ^ 32) :
    applyFrom lines place (entries.map fun (line, text) => ofInsertion deleted line text) =
      Line.render (settle inserted removed place (lines.drop place)) := by
  induction entries generalizing place inserted with
  | nil =>
    rw [describes.settle_nil]
    rfl
  | cons entry rest ih =>
    obtain ⟨line, text⟩ := entry
    obtain ⟨lower, ordered, bound⟩ := describes.bounds
    have written : text = Line.render (inserted line) := describes.present _ List.mem_cons_self
    have changed : Line.render (settle inserted removed place (lines.drop place)) =
        Line.render ((lines.take (firstLine deleted line)).drop place) ++ text ++
          Line.render (settle (fun k => if k = line then [] else inserted k) removed line (lines.drop line)) := by
      rw [settle_drop_split lower (by omega), settle_drop_split ordered (by omega), describes.settle_kept,
        describes.settle_gone, List.nil_append, settle_insertion bound, Line.render_append, Line.render_append,
        ← written, List.append_assoc]
    rw [List.map_cons, applyFrom, toNat_start_ofInsertion text (by omega), toNat_stop_ofInsertion text (by omega),
      ih describes.tail, changed]
    rfl

theorem Describes.edits_apart (describes : Describes entries deleted lines inserted removed place)
    (short : lines.length < 2 ^ 32) :
    (entries.map fun (line, text) => ofInsertion deleted line text).Pairwise fun earlier later =>
      earlier.range.stop.line < later.range.start.line := by
  refine List.pairwise_map.mpr (describes.spaced.imp_of_mem ?_)
  intro earlier later earlierMember laterMember before
  have earlierBounds := describes.inside earlier earlierMember
  have laterBounds := describes.inside later laterMember
  rw [UInt32.lt_iff_toNat_lt, toNat_stop_ofInsertion _ (by omega), toNat_start_ofInsertion _ (by omega)]
  exact before

theorem Describes.edits_inside (describes : Describes entries deleted lines inserted removed place)
    (short : lines.length < 2 ^ 32) :
    ∀ edit ∈ entries.map fun (line, text) => ofInsertion deleted line text,
      edit.range.start.character = 0 ∧ edit.range.stop.character = 0 ∧
        edit.range.start.line ≤ edit.range.stop.line ∧ edit.range.stop.line.toNat < lines.length := by
  intro edit member
  obtain ⟨⟨line, text⟩, entryMember, rfl⟩ := List.mem_map.mp member
  have bounds := describes.inside _ entryMember
  dsimp only at bounds ⊢
  refine ⟨rfl, rfl, ?_, ?_⟩
  · rw [UInt32.le_iff_toNat_le, toNat_stop_ofInsertion _ (by omega), toNat_start_ofInsertion _ (by omega)]
    exact bounds.2.1
  · rw [toNat_stop_ofInsertion _ (by omega)]
    exact bounds.2.2

end Step

end Walk

section Planned

open Plan

theorem render_ne_nil {line : Line} {lines : List Line} (member : line ∈ lines)
    (breaks : line.ending.breaksLine = true) :
    Line.render lines ≠ [] := by
  obtain ⟨front, back, rfl⟩ := List.append_of_mem member
  rw [Line.render_append, Line.render_cons]
  cases ending : line.ending <;> simp_all [Ending.text, Ending.breaksLine]

theorem insertedBy_orderedOperations (plan : Plan) (buffer : List Line) (line : Nat) :
    insertedBy plan.orderedOperations buffer line = plan.insertedAt buffer line := by
  rw [insertedBy, textsAt_orderedOperations, insertedAt]

/-- The insertions of a plan: one for each line with comments, with the text of the lines put before it. -/
theorem mem_insertions {doc : Document} {plan : Plan} {line : Nat} {text : Text} :
    (line, text) ∈ insertions doc plan.orderedOperations ↔
      plan.commentsAt line ≠ [] ∧ text = Line.render (plan.insertedAt doc.lines line) := by
  obtain ⟨ascending, items, filled⟩ := insertions_spec doc plan.orderedOperations
  simp only [insertedBy_orderedOperations] at items
  constructor
  · intro member
    have whole := (eq_itemsAt_of_mem ascending member).trans (items line)
    refine ⟨fun none => filled _ member ?_, whole⟩
    rw [show text = _ from whole, insertedAt_eq_nil_iff.mpr none, Line.render_nil]
  · rintro ⟨some, rfl⟩
    obtain ⟨inserted, member⟩ := List.exists_mem_of_ne_nil _ (mt insertedAt_eq_nil_iff.mp some)
    have breaks : inserted.ending.breaksLine = true := by
      obtain ⟨piece, _, rfl⟩ := List.mem_map.mp member
      exact Ending.forInsertion_breaksLine _ _
    obtain ⟨found, foundMember⟩ := mem_of_itemsAt_ne_nil (items line ▸ render_ne_nil member breaks)
    rwa [eq_itemsAt_of_mem ascending foundMember, items] at foundMember

variable {doc : Document} {baseUrl : Text}

theorem mem_deletions {plan : Plan} {range : LineRange} :
    range ∈ deletions plan.orderedOperations ↔ range ∈ LineRange.union (plan.map (·.stale)) := by
  have normal := LineRange.union_spec (plan.map (·.stale))
  have ordered : ∀ other, .delete other ∈ plan.orderedOperations ↔ other ∈ LineRange.union (plan.map (·.stale)) := by
    intro other
    rw [orderedOperations, (order_perm _).mem_iff, mem_operations]
    constructor
    · rintro (⟨same, member, equal⟩ | ⟨_, _, equal⟩)
      · cases equal
        exact member
      · cases equal
    · exact fun member => .inl ⟨other, member, rfl⟩
  obtain ⟨sound, complete⟩ := deletions_spec plan.orderedOperations
  constructor
  · exact fun member => (ordered range).mp (sound range member).1
  · intro member
    have holds := normal.1.filled range member
    have notEmpty : range.isEmpty = false := by simpa [LineRange.isEmpty] using holds
    obtain ⟨other, otherMember, same⟩ := complete range ((ordered range).mpr member) notEmpty
    have otherUnion := (ordered other).mp (sound other otherMember).1
    have otherHolds := normal.1.filled other otherUnion
    rcases normal.1.eq_or_apart member otherUnion with rfl | apart | apart
    · exact otherMember
    · omega
    · omega

/-- An edit starts at the deletion that ends at its line, or at the line itself. -/
theorem firstLine_spec (plan : Plan) (line : Nat) :
    (∃ range ∈ LineRange.union (plan.map (·.stale)), range.stop = line ∧
      firstLine (deletions plan.orderedOperations) line = range.start) ∨
    ((∀ range ∈ LineRange.union (plan.map (·.stale)), range.stop ≠ line) ∧
      firstLine (deletions plan.orderedOperations) line = line) := by
  cases found : (deletions plan.orderedOperations).find? (·.stop = line) with
  | none =>
    refine .inr ⟨fun range member => ?_, by rw [firstLine, found]; rfl⟩
    simpa using List.find?_eq_none.mp found range (mem_deletions.mpr member)
  | some range =>
    refine .inl ⟨range, mem_deletions.mp (List.mem_of_find?_eq_some found), ?_, by rw [firstLine, found]; rfl⟩
    simpa using List.find?_some found

theorem firstLine_eq_start {plan : Plan} {range : LineRange} (member : range ∈ LineRange.union (plan.map (·.stale))) :
    firstLine (deletions plan.orderedOperations) range.stop = range.start := by
  have normal := (LineRange.union_spec (plan.map (·.stale))).1
  rcases firstLine_spec plan range.stop with ⟨other, otherMember, same, start⟩ | ⟨none, _⟩
  · have holds := normal.filled range member
    have otherHolds := normal.filled other otherMember
    rcases normal.eq_or_apart member otherMember with rfl | apart | apart
    · exact start
    · omega
    · omega
  · exact absurd rfl (none range member)

theorem firstLine_le (plan : Plan) (line : Nat) : firstLine (deletions plan.orderedOperations) line ≤ line := by
  rcases firstLine_spec plan line with ⟨range, member, rfl, start⟩ | ⟨_, same⟩
  · have holds := (LineRange.union_spec _).1.filled range member
    omega
  · omega

/-- Every deletion of a planned document ends at a line that gets comments. -/
theorem commentsAt_stop_ne_nil {range : LineRange}
    (member : range ∈ LineRange.union ((ofDocument doc baseUrl).map (·.stale))) :
    (ofDocument doc baseUrl).commentsAt range.stop ≠ [] := by
  obtain ⟨source, sourceMember, same, _⟩ := LineRange.stop_of_mem_union member
  obtain ⟨block, planned, rfl⟩ := List.mem_map.mp sourceMember
  rw [← same, stale_stop planned]
  exact commentsAt_line_ne_nil planned

/-- The insertions of a regular plan with the stale lines above them are all that happens to the document. -/
theorem insertions_describe (regular : Regular (ofDocument doc baseUrl) doc.lines.length) :
    Describes (insertions doc (ofDocument doc baseUrl).orderedOperations)
      (deletions (ofDocument doc baseUrl).orderedOperations) doc.lines
      ((ofDocument doc baseUrl).insertedAt doc.lines) (ofDocument doc baseUrl).marksStale 0 where
  inside entry member := by
    obtain ⟨block, planned, same, _⟩ := mem_of_commentsAt_ne_nil (mem_insertions.mp member).1
    exact ⟨Nat.zero_le _, firstLine_le _ _, same ▸ regular.inside block planned⟩
  spaced := by
    refine (insertions_spec doc _).1.imp_of_mem ?_
    intro earlier later earlierMember _ before
    obtain ⟨block, planned, same, _⟩ := mem_of_commentsAt_ne_nil (mem_insertions.mp earlierMember).1
    rcases firstLine_spec (ofDocument doc baseUrl) later.1 with ⟨range, member, stop, start⟩ | ⟨_, start⟩
    · -- The earlier line stays, so the deletion that ends at the later one starts behind it.
      have outside : ¬ range.contains earlier.1 = true := by
        intro inside
        have stale := (covers_union_stale _ _).mp ⟨range, member, inside⟩
        rw [← same, regular.stays block planned] at stale
        exact absurd stale Bool.false_ne_true
      rw [LineRange.contains_iff] at outside
      omega
    · omega
  absent line _ none := by
    rw [insertedAt_eq_nil_iff]
    by_contra filled
    exact none _ (mem_insertions.mpr ⟨filled, rfl⟩) rfl
  present entry member := (mem_insertions.mp member).2
  stale line _ := by
    rw [← covers_union_stale]
    constructor
    · rintro ⟨range, member, inside⟩
      rw [LineRange.contains_iff] at inside
      refine ⟨_, mem_insertions.mpr ⟨commentsAt_stop_ne_nil member, rfl⟩, ?_, inside.2⟩
      rw [firstLine_eq_start member]
      exact inside.1
    · rintro ⟨entry, _, start, before⟩
      rcases firstLine_spec (ofDocument doc baseUrl) entry.1 with ⟨range, member, stop, same⟩ | ⟨_, same⟩
      · exact ⟨range, member, LineRange.contains_iff.mpr ⟨by omega, by omega⟩⟩
      · omega

theorem atMost_of_apart {earlier later : TextEdit} (apart : earlier.range.stop.line < later.range.start.line)
    (ordered : earlier.range.start.line ≤ earlier.range.stop.line) : atMost earlier later = true := by
  rw [atMost, Bool.or_eq_true, decide_eq_true_eq]
  exact .inl (UInt32.lt_of_le_of_lt ordered apart)

/-- The edits of a regular plan are its insertions; no deletion is left over, and they are sorted already. -/
theorem ofOperations_eq_insertions (regular : Regular (ofDocument doc baseUrl) doc.lines.length)
    (short : doc.lines.length < 2 ^ 32) :
    ofOperations doc (ofDocument doc baseUrl).orderedOperations =
      (insertions doc (ofDocument doc baseUrl).orderedOperations).map fun (line, text) =>
        ofInsertion (deletions (ofDocument doc baseUrl).orderedOperations) line text := by
  have describes := insertions_describe regular
  have left : (deletions (ofDocument doc baseUrl).orderedOperations).filter (fun range =>
      !(insertions doc (ofDocument doc baseUrl).orderedOperations).any fun (line, _) => line == range.stop) = [] := by
    rw [List.filter_eq_nil_iff]
    intro range member
    simp only [Bool.not_eq_true', Bool.not_eq_false, List.any_eq_true]
    exact ⟨_, mem_insertions.mpr ⟨commentsAt_stop_ne_nil (mem_deletions.mp member), rfl⟩, beq_self_eq_true _⟩
  simp only [ofOperations, left, List.map_nil, List.append_nil]
  apply List.mergeSort_of_pairwise
  refine (describes.edits_apart short).imp_of_mem ?_
  intro earlier later earlierMember _ apart
  exact atMost_of_apart apart (describes.edits_inside short earlier earlierMember).2.2.1

end Planned

/-- Where no mapping stands on a generated comment, the edits of a document are sorted, they replace whole lines and
have lines between them, and an editor that applies them to the document makes the text that the plan makes. -/
theorem planned_edits_agree (doc : Document) (baseUrl : Text) (short : doc.lines.length < 2 ^ 32)
    (plain : ∀ block ∈ Plan.ofDocument doc baseUrl, ∀ text ∈ doc.lineText? block.line,
      Comment.isGenerated text = false) :
    let plan := Plan.ofDocument doc baseUrl
    let edits := ofOperations doc plan.orderedOperations
    edits.Pairwise (fun earlier later => atMost earlier later = true) ∧
      edits.Pairwise (fun earlier later => earlier.range.stop.line < later.range.start.line) ∧
      (∀ edit ∈ edits, edit.range.start.character = 0 ∧ edit.range.stop.character = 0 ∧
        edit.range.start.line ≤ edit.range.stop.line ∧ edit.range.stop.line.toNat < doc.lines.length) ∧
      applyTo doc edits = plan.apply doc := by
  have regular := Plan.regular_of_not_generated plain
  have describes := insertions_describe regular
  have apart := describes.edits_apart short
  have inside := describes.edits_inside short
  dsimp only
  rw [ofOperations_eq_insertions regular short]
  refine ⟨?_, apart, inside, ?_⟩
  · refine apart.imp_of_mem ?_
    intro earlier later earlierMember _ before
    exact atMost_of_apart before (inside earlier earlierMember).2.2.1
  · rw [applyTo, describes.applyFrom_eq short, Plan.apply, Document.edited, regular.applyAll_eq_settle, List.drop_zero]

/-- Two stale comments above one mapping and none above the next, with lines that end in two ways. -/
def staleRun : Document where
  path := Path.ofText "A.java".toList
  text := joinWith ['\n'] ["// GET http://old/x\r".toList, "// PUT http://old/x".toList, "@GetMapping(\"/x\")\r".toList,
    "void x();".toList, "@PostMapping(\"/y\") void y();".toList]

theorem orderedOperations_staleRun : (Plan.ofDocument staleRun "http://h".toList).orderedOperations =
    [.insert 4 "// POST http://h/y".toList, .insert 2 "// GET http://h/x".toList,
      .delete { start := 0, stop := 2 }] :=
  ((Plan.areOrdered_iff_eq (by decide +kernel)).mp (by decide)).symm

theorem staleRun_edits_agree :
    let plan := Plan.ofDocument staleRun "http://h".toList
    let edits := ofOperations staleRun plan.orderedOperations
    plan.length = 2 ∧ plan.marksStale 1 = true ∧
      edits = [{ range := lineRange 0 2, newText := "// GET http://h/x\r\n".toList },
        { range := lineRange 4 4, newText := "// POST http://h/y\n".toList }] ∧
      applyTo staleRun edits = plan.apply staleRun ∧
      plan.apply staleRun = joinWith ['\n'] ["// GET http://h/x\r".toList, "@GetMapping(\"/x\")\r".toList,
        "void x();".toList, "// POST http://h/y".toList, "@PostMapping(\"/y\") void y();".toList] := by
  have plain : ∀ block ∈ Plan.ofDocument staleRun "http://h".toList, ∀ text ∈ staleRun.lineText? block.line,
      Comment.isGenerated text = false := by
    decide +kernel
  have short : staleRun.lines.length < 2 ^ 32 := by decide +kernel
  have applied := (planned_edits_agree staleRun "http://h".toList short plain).2.2.2
  refine ⟨by decide +kernel, by decide +kernel, ?_, applied, ?_⟩
  · rw [ofOperations_eq_insertions (Plan.regular_of_not_generated plain) short, orderedOperations_staleRun]
    decide +kernel
  · rw [Plan.apply, orderedOperations_staleRun]
    decide +kernel

end RouteComments.Editor.TextEdit
