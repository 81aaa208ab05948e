import Mathlib.Data.List.Basic
import RouteComments.Plan.Block
import RouteComments.Proofs.LineEdits
import RouteComments.Proofs.Texts

set_option autoImplicit false

namespace RouteComments

open Text

namespace LineRange

theorem contains_iff {range : LineRange} {line : Nat} :
    range.contains line = true ↔ range.start ≤ line ∧ line < range.stop := by
  simp only [contains, Bool.and_eq_true, decide_eq_true_eq]

/-- Ascending ranges that each hold a line, with a gap between neighbours. -/
structure Separated (ranges : List LineRange) : Prop where
  apart : ranges.Pairwise fun earlier later => earlier.stop < later.start
  filled : ∀ range ∈ ranges, range.start < range.stop

def Covers (ranges : List LineRange) (line : Nat) : Prop :=
  ∃ range ∈ ranges, range.contains line = true

theorem Separated.nil : Separated [] :=
  ⟨List.Pairwise.nil, fun _ member => absurd member List.not_mem_nil⟩

theorem separated_cons {range : LineRange} {rest : List LineRange} :
    Separated (range :: rest) ↔
      range.start < range.stop ∧ (∀ other ∈ rest, range.stop < other.start) ∧ Separated rest := by
  constructor
  · rintro ⟨apart, filled⟩
    obtain ⟨first, others⟩ := List.pairwise_cons.mp apart
    exact ⟨filled range List.mem_cons_self, first, others,
      fun other member => filled other (List.mem_cons_of_mem _ member)⟩
  · rintro ⟨holds, first, others⟩
    refine ⟨List.pairwise_cons.mpr ⟨first, others.apart⟩, ?_⟩
    intro other member
    rcases List.mem_cons.mp member with rfl | member
    · exact holds
    · exact others.filled other member

theorem lt_start_of_mem_addTo {bound : Nat} {range : LineRange} {ranges : List LineRange}
    (above : bound < range.start) (others : ∀ other ∈ ranges, bound < other.start) :
    ∀ other ∈ addTo range ranges, bound < other.start := by
  induction ranges generalizing range with
  | nil =>
    intro other member
    rw [addTo, List.mem_singleton] at member
    exact member ▸ above
  | cons next rest ih =>
    obtain ⟨first, remaining⟩ := List.forall_mem_cons.mp others
    rw [addTo]
    split
    · exact List.forall_mem_cons.mpr ⟨above, others⟩
    · split
      · exact List.forall_mem_cons.mpr ⟨first, ih above remaining⟩
      · exact ih (Nat.lt_min.mpr ⟨above, first⟩) remaining

theorem addTo_separated {range : LineRange} {ranges : List LineRange} (holds : range.start < range.stop)
    (separated : Separated ranges) : Separated (addTo range ranges) := by
  induction ranges generalizing range with
  | nil => exact separated_cons.mpr ⟨holds, fun _ member => absurd member List.not_mem_nil, Separated.nil⟩
  | cons next rest ih =>
    obtain ⟨nextHolds, gap, others⟩ := separated_cons.mp separated
    rw [addTo]
    split
    · rename_i before
      refine separated_cons.mpr ⟨holds, ?_, separated⟩
      intro other member
      rcases List.mem_cons.mp member with rfl | member
      · exact before
      · have behind := gap other member
        omega
    · split
      · rename_i behind
        exact separated_cons.mpr ⟨nextHolds, lt_start_of_mem_addTo behind gap, ih holds others⟩
      · refine ih ?_ others
        show min range.start next.start < max range.stop next.stop
        omega

theorem covers_cons {range : LineRange} {rest : List LineRange} {line : Nat} :
    Covers (range :: rest) line ↔ range.contains line = true ∨ Covers rest line := by
  simp only [Covers, List.mem_cons, exists_eq_or_imp]

theorem covers_addTo {range : LineRange} {ranges : List LineRange} (holds : range.start < range.stop)
    (separated : Separated ranges) (line : Nat) :
    Covers (addTo range ranges) line ↔ range.contains line = true ∨ Covers ranges line := by
  induction ranges generalizing range with
  | nil => rw [addTo, covers_cons]
  | cons next rest ih =>
    obtain ⟨nextHolds, _, others⟩ := separated_cons.mp separated
    rw [addTo]
    split
    · rw [covers_cons]
    · split
      · rw [covers_cons, ih holds others, covers_cons]
        exact or_left_comm
      · rename_i notBefore notBehind
        have joined : ({ start := min range.start next.start, stop := max range.stop next.stop : LineRange }).contains
            line = true ↔ range.contains line = true ∨ next.contains line = true := by
          simp only [contains_iff]
          omega
        rw [ih (show min range.start next.start < max range.stop next.stop by omega) others, joined,
          covers_cons, or_assoc]

/-- The union of ranges is in normal form and holds the lines of the ranges. -/
theorem union_spec (ranges : List LineRange) :
    Separated (union ranges) ∧ ∀ line, Covers (union ranges) line ↔ Covers ranges line := by
  suffices run : ∀ (rest found : List LineRange), (∀ range ∈ rest, range.start < range.stop) →
      Separated found →
      Separated (rest.foldl (fun found range => addTo range found) found) ∧
        ∀ line, Covers (rest.foldl (fun found range => addTo range found) found) line ↔
          Covers rest line ∨ Covers found line by
    have holding : ∀ range ∈ ranges.filter (!·.isEmpty), range.start < range.stop := by
      intro range member
      simpa [isEmpty] using (List.mem_filter.mp member).2
    obtain ⟨separated, covers⟩ := run _ [] holding Separated.nil
    refine ⟨separated, fun line => (covers line).trans ?_⟩
    simp only [Covers, List.mem_filter, List.not_mem_nil, false_and, exists_false, or_false]
    constructor
    · rintro ⟨range, ⟨member, _⟩, inside⟩
      exact ⟨range, member, inside⟩
    · rintro ⟨range, member, inside⟩
      refine ⟨range, ⟨member, ?_⟩, inside⟩
      have bounds := contains_iff.mp inside
      simp only [isEmpty, Bool.not_eq_true', decide_eq_false_iff_not]
      omega
  intro rest
  induction rest with
  | nil => exact fun found _ separated => ⟨separated, fun line => by simp [Covers]⟩
  | cons range rest ih =>
    intro found holding separated
    have holds := holding range List.mem_cons_self
    obtain ⟨result, covers⟩ := ih (addTo range found)
      (fun other member => holding other (List.mem_cons_of_mem _ member)) (addTo_separated holds separated)
    refine ⟨result, fun line => ?_⟩
    rw [List.foldl_cons, covers, covers_addTo holds separated, covers_cons]
    exact or_left_comm.trans or_assoc.symm

/-- Two ranges in normal form are the same or have a gap between them. -/
theorem Separated.eq_or_apart {ranges : List LineRange} (separated : Separated ranges) {range other : LineRange}
    (member : range ∈ ranges) (otherMember : other ∈ ranges) :
    range = other ∨ range.stop < other.start ∨ other.stop < range.start := by
  have ascending := separated.apart
  exact List.Pairwise.forall_of_forall_of_flip (R := fun a b => a = b ∨ a.stop < b.start ∨ b.stop < a.start)
    (fun _ _ => .inl rfl) (ascending.imp fun before => .inr (.inl before))
    (ascending.imp fun before => .inr (.inr before)) member otherMember

/-- A range of the union ends where one of the ranges ends. -/
theorem stop_of_mem_union {ranges : List LineRange} {range : LineRange} (member : range ∈ union ranges) :
    ∃ source ∈ ranges, source.stop = range.stop ∧ source.start < source.stop := by
  obtain ⟨separated, covers⟩ := union_spec ranges
  have holds := separated.filled range member
  have lastCovered : Covers (union ranges) (range.stop - 1) :=
    ⟨range, member, contains_iff.mpr ⟨by omega, by omega⟩⟩
  obtain ⟨source, sourceMember, inside⟩ := (covers _).mp lastCovered
  have bounds := contains_iff.mp inside
  refine ⟨source, sourceMember, ?_, by omega⟩
  -- A longer source would cover the line behind `range`, which lies in a gap.
  by_cases longer : range.stop < source.stop
  · have behindCovered : Covers ranges range.stop :=
      ⟨source, sourceMember, contains_iff.mpr ⟨by omega, longer⟩⟩
    obtain ⟨other, otherMember, otherInside⟩ := (covers _).mpr behindCovered
    have otherBounds := contains_iff.mp otherInside
    rcases separated.eq_or_apart member otherMember with rfl | before | behind <;> omega
  · omega

end LineRange

section Gathering

variable {α : Type}

/-- Adds items at a line to items sorted by line, behind those already there. -/
def addAt (line : Nat) (items : List α) : List (Nat × List α) → List (Nat × List α)
  | [] => [(line, items)]
  | (other, found) :: rest =>
    if other = line then (other, found ++ items) :: rest
    else if line < other then (line, items) :: (other, found) :: rest
    else (other, found) :: addAt line items rest

def itemsAt (entries : List (Nat × List α)) (line : Nat) : List α :=
  entries.flatMap fun entry => if entry.1 = line then entry.2 else []

def Ascending (entries : List (Nat × List α)) : Prop :=
  entries.Pairwise fun earlier later => earlier.1 < later.1

theorem itemsAt_cons (entry : Nat × List α) (rest : List (Nat × List α)) (line : Nat) :
    itemsAt (entry :: rest) line = (if entry.1 = line then entry.2 else []) ++ itemsAt rest line := rfl

theorem itemsAt_eq_nil {entries : List (Nat × List α)} {line : Nat} (absent : ∀ entry ∈ entries, entry.1 ≠ line) :
    itemsAt entries line = [] := by
  simp only [itemsAt, List.flatMap_eq_nil_iff]
  exact fun entry member => if_neg (absent entry member)

theorem lt_of_mem_addAt {bound line : Nat} {items : List α} {entries : List (Nat × List α)}
    (above : bound < line) (others : ∀ entry ∈ entries, bound < entry.1) :
    ∀ entry ∈ addAt line items entries, bound < entry.1 := by
  induction entries with
  | nil =>
    intro entry member
    rw [addAt, List.mem_singleton] at member
    exact member ▸ above
  | cons next rest ih =>
    obtain ⟨first, remaining⟩ := List.forall_mem_cons.mp others
    obtain ⟨other, found⟩ := next
    rw [addAt]
    split
    · exact List.forall_mem_cons.mpr ⟨first, remaining⟩
    · split
      · exact List.forall_mem_cons.mpr ⟨above, others⟩
      · exact List.forall_mem_cons.mpr ⟨first, ih remaining⟩

theorem addAt_ascending (line : Nat) (items : List α) {entries : List (Nat × List α)}
    (ascending : Ascending entries) : Ascending (addAt line items entries) := by
  induction entries with
  | nil => exact List.pairwise_singleton _ _
  | cons next rest ih =>
    obtain ⟨above, others⟩ := List.pairwise_cons.mp ascending
    obtain ⟨other, found⟩ := next
    rw [addAt]
    split
    · exact List.pairwise_cons.mpr ⟨above, others⟩
    · split
      · rename_i before
        refine List.pairwise_cons.mpr ⟨?_, ascending⟩
        intro entry member
        rcases List.mem_cons.mp member with rfl | member
        · exact before
        · exact Nat.lt_trans before (above entry member)
      · rename_i different notBefore
        exact List.pairwise_cons.mpr ⟨lt_of_mem_addAt (by omega) above, ih others⟩

theorem itemsAt_addAt (line : Nat) (items : List α) {entries : List (Nat × List α)}
    (ascending : Ascending entries) (place : Nat) :
    itemsAt (addAt line items entries) place =
      itemsAt entries place ++ (if line = place then items else []) := by
  induction entries with
  | nil => simp only [addAt, itemsAt, List.flatMap_cons, List.flatMap_nil, List.append_nil, List.nil_append]
  | cons next rest ih =>
    obtain ⟨above, others⟩ := List.pairwise_cons.mp ascending
    obtain ⟨other, found⟩ := next
    have absent : ∀ place, place ≤ other → itemsAt rest place = [] := by
      intro place lower
      apply itemsAt_eq_nil
      intro entry member
      have bound := above entry member
      dsimp only at bound
      omega
    rw [addAt]
    split
    · rename_i same
      subst same
      simp only [itemsAt_cons]
      by_cases here : other = place
      · rw [if_pos here, if_pos here, if_pos here, absent place (by omega)]
        simp only [List.append_nil]
      · rw [if_neg here, if_neg here, if_neg here, List.append_nil]
    · split
      · rename_i before
        simp only [itemsAt_cons]
        by_cases here : line = place
        · rw [if_pos here, if_neg (show other ≠ place by omega), absent place (by omega)]
          simp only [List.append_nil, List.nil_append]
        · rw [if_neg here, List.nil_append, List.append_nil]
      · simp only [itemsAt_cons, ih others, List.append_assoc]

theorem addAt_filled {line : Nat} {items : List α} {entries : List (Nat × List α)} (filled : items ≠ [])
    (others : ∀ entry ∈ entries, entry.2 ≠ []) : ∀ entry ∈ addAt line items entries, entry.2 ≠ [] := by
  induction entries with
  | nil =>
    intro entry member
    rw [addAt, List.mem_singleton] at member
    exact member ▸ filled
  | cons next rest ih =>
    obtain ⟨first, remaining⟩ := List.forall_mem_cons.mp others
    obtain ⟨other, found⟩ := next
    rw [addAt]
    split
    · exact List.forall_mem_cons.mpr ⟨List.append_ne_nil_of_left_ne_nil first _, remaining⟩
    · split
      · exact List.forall_mem_cons.mpr ⟨filled, others⟩
      · exact List.forall_mem_cons.mpr ⟨first, ih remaining⟩

/-- In ascending entries each one holds all items of its line. -/
theorem eq_itemsAt_of_mem {entries : List (Nat × List α)} (ascending : Ascending entries) {line : Nat}
    {items : List α} (member : (line, items) ∈ entries) : items = itemsAt entries line := by
  induction entries with
  | nil => exact absurd member List.not_mem_nil
  | cons next rest ih =>
    obtain ⟨above, others⟩ := List.pairwise_cons.mp ascending
    rw [itemsAt_cons]
    rcases List.mem_cons.mp member with rfl | member
    · rw [if_pos rfl, itemsAt_eq_nil (fun entry member => Nat.ne_of_gt (above entry member)), List.append_nil]
    · rw [if_neg (Nat.ne_of_lt (above _ member)), List.nil_append, ← ih others member]

theorem mem_of_itemsAt_ne_nil {entries : List (Nat × List α)} {line : Nat} (found : itemsAt entries line ≠ []) :
    ∃ items, (line, items) ∈ entries := by
  simp only [itemsAt, ne_eq, List.flatMap_eq_nil_iff, ite_eq_right_iff, Classical.not_forall] at found
  obtain ⟨⟨other, items⟩, member, same, _⟩ := found
  exact ⟨items, same ▸ member⟩

end Gathering

namespace Plan

/-- The comments of all blocks at a line, in order of the blocks. -/
def commentsAt (plan : Plan) (line : Nat) : List Text :=
  plan.flatMap fun block => if block.line = line then block.comments else []

/-- Whether a block of the plan marks a line as stale. -/
def marksStale (plan : Plan) (line : Nat) : Bool :=
  plan.any (·.stale.contains line)

theorem marksStale_eq_false_iff {plan : Plan} {line : Nat} :
    plan.marksStale line = false ↔ ∀ block ∈ plan, block.stale.contains line = false := by
  simp only [marksStale, List.any_eq_false, Bool.not_eq_true]

theorem mem_commentsAt {plan : Plan} {line : Nat} {comment : Text} :
    comment ∈ plan.commentsAt line ↔ ∃ block ∈ plan, block.line = line ∧ comment ∈ block.comments := by
  simp only [commentsAt, List.mem_flatMap]
  refine exists_congr fun block => and_congr_right fun _ => ?_
  split
  · exact (and_iff_right ‹_›).symm
  · exact iff_of_false List.not_mem_nil fun here => absurd here.1 ‹_›

theorem addComments_eq_addAt (line : Nat) (comments : List Text) (found : List (Nat × List Text)) :
    addComments line comments found = addAt line comments found := by
  induction found with
  | nil => rfl
  | cons next rest ih =>
    rw [addComments, addAt, ih]

/-- The comments by line are sorted, hold the comments of all blocks, and none of them is empty. -/
theorem commentsByLine_spec (plan : Plan) :
    Ascending plan.commentsByLine ∧ (∀ line, itemsAt plan.commentsByLine line = plan.commentsAt line) ∧
      ∀ entry ∈ plan.commentsByLine, entry.2 ≠ [] := by
  suffices run : ∀ (blocks : Plan) (found : List (Nat × List Text)), Ascending found →
      (∀ entry ∈ found, entry.2 ≠ []) →
      let gathered := blocks.foldl (fun found block =>
        if block.comments.isEmpty then found else addComments block.line block.comments found) found
      Ascending gathered ∧ (∀ line, itemsAt gathered line = itemsAt found line ++ blocks.commentsAt line) ∧
        ∀ entry ∈ gathered, entry.2 ≠ [] by
    exact run plan [] List.Pairwise.nil (fun _ member => absurd member List.not_mem_nil)
  intro blocks
  induction blocks with
  | nil => exact fun found ascending filled => ⟨ascending, fun line => (List.append_nil _).symm, filled⟩
  | cons block rest ih =>
    intro found ascending filled
    have here : ∀ line, commentsAt (block :: rest) line =
        (if block.line = line then block.comments else []) ++ commentsAt rest line := fun line => rfl
    rw [List.foldl_cons]
    by_cases empty : block.comments = []
    · obtain ⟨result, items, nonempty⟩ := ih found ascending filled
      simp only [empty, List.isEmpty_nil, if_true]
      refine ⟨result, fun line => ?_, nonempty⟩
      rw [items, here, empty, ite_self, List.nil_append]
    · have notEmpty : block.comments.isEmpty = false := by simpa using empty
      obtain ⟨result, items, nonempty⟩ := ih (addAt block.line block.comments found)
        (addAt_ascending _ _ ascending) (addAt_filled empty filled)
      simp only [notEmpty, Bool.false_eq_true, if_false, addComments_eq_addAt]
      simp only [addComments_eq_addAt] at result items nonempty
      refine ⟨result, fun line => ?_, nonempty⟩
      rw [items, itemsAt_addAt _ _ ascending, here, List.append_assoc]

/-- A line has an entry with its comments exactly when there are any. -/
theorem mem_commentsByLine {plan : Plan} {line : Nat} {comments : List Text} :
    (line, comments) ∈ plan.commentsByLine ↔ comments = plan.commentsAt line ∧ comments ≠ [] := by
  obtain ⟨ascending, items, filled⟩ := commentsByLine_spec plan
  constructor
  · intro member
    exact ⟨(eq_itemsAt_of_mem ascending member).trans (items line), filled _ member⟩
  · rintro ⟨rfl, some⟩
    obtain ⟨found, member⟩ := mem_of_itemsAt_ne_nil (items line ▸ some)
    rwa [eq_itemsAt_of_mem ascending member, items] at member

end Plan

namespace Operation

theorem mayPrecede_iff {earlier later : Operation} :
    mayPrecede earlier later = true ↔
      later.anchor < earlier.anchor ∨ (earlier.anchor = later.anchor ∧ earlier.rank ≤ later.rank) := by
  simp only [mayPrecede, Bool.or_eq_true, decide_eq_true_eq, Bool.and_eq_true, beq_iff_eq]

theorem order_perm (operations : List Operation) : (order operations).Perm operations :=
  List.mergeSort_perm operations mayPrecede

theorem order_sorted (operations : List Operation) :
    (order operations).Pairwise fun earlier later => mayPrecede earlier later = true := by
  apply List.pairwise_mergeSort
  · intro a b c
    simp only [mayPrecede_iff]
    omega
  · intro a b
    rw [Bool.or_eq_true]
    simp only [mayPrecede_iff]
    omega

/-- Two operations of which one touches only lines above those of the other. -/
def Apart (a b : Operation) : Prop :=
  a.past ≤ b.first ∨ b.past ≤ a.first

def Touches (operation : Operation) : Prop :=
  operation.first < operation.past

theorem anchor_eq {operation : Operation} (touches : Touches operation) :
    operation.first ≤ operation.anchor ∧ operation.anchor + 1 = operation.past := by
  cases operation with
  | delete range =>
    simp only [Touches, first, past] at touches
    simp only [first, anchor, past]
    omega
  | insert line text => exact ⟨Nat.le_refl line, rfl⟩

/-- Sorting puts operations that touch different lines in descending order. -/
theorem order_descending {operations : List Operation} (apart : operations.Pairwise Apart)
    (touching : ∀ operation ∈ operations, Touches operation) : Descending (order operations) := by
  have perm := order_perm operations
  have apartSorted : (order operations).Pairwise Apart :=
    (perm.pairwise_iff (fun split => Or.symm split)).mpr apart
  refine ((order_sorted operations).and apartSorted).imp_of_mem ?_
  intro earlier later earlierMember laterMember ⟨sorted, split⟩
  have earlierAnchor := anchor_eq (touching earlier (perm.mem_iff.mp earlierMember))
  have laterAnchor := anchor_eq (touching later (perm.mem_iff.mp laterMember))
  rw [mayPrecede_iff] at sorted
  unfold Apart at split
  omega

/-- Deletions that come up touch only lines above those touched before; insertions may land anywhere. -/
def SafeBefore (earlier : Operation) : Operation → Prop
  | .delete range => range.stop ≤ earlier.first
  | .insert _ _ => True

end Operation

namespace Plan

open Operation

theorem mem_operations {plan : Plan} {operation : Operation} :
    operation ∈ plan.operations ↔
      (∃ range ∈ LineRange.union (plan.map (·.stale)), operation = .delete range) ∨
        ∃ line, plan.commentsAt line ≠ [] ∧
          operation = .insert line (joinWith ['\n'] (plan.commentsAt line)) := by
  simp only [operations, List.mem_append, List.mem_map, Prod.exists]
  constructor
  · rintro (⟨range, member, rfl⟩ | ⟨line, comments, member, rfl⟩)
    · exact .inl ⟨range, member, rfl⟩
    · obtain ⟨rfl, filled⟩ := mem_commentsByLine.mp member
      exact .inr ⟨line, filled, rfl⟩
  · rintro (⟨range, member, rfl⟩ | ⟨line, filled, rfl⟩)
    · exact .inl ⟨range, member, rfl⟩
    · exact .inr ⟨line, _, mem_commentsByLine.mpr ⟨rfl, filled⟩, rfl⟩

theorem covers_union_stale (plan : Plan) (line : Nat) :
    LineRange.Covers (LineRange.union (plan.map (·.stale))) line ↔ plan.marksStale line = true := by
  rw [(LineRange.union_spec _).2]
  simp only [LineRange.Covers, List.mem_map, marksStale, List.any_eq_true]
  constructor
  · rintro ⟨_, ⟨block, member, rfl⟩, inside⟩
    exact ⟨block, member, inside⟩
  · rintro ⟨block, member, inside⟩
    exact ⟨block.stale, ⟨block, member, rfl⟩, inside⟩

/-- The operations of a plan remove the stale lines. -/
theorem removedBy_orderedOperations (plan : Plan) (line : Nat) :
    removedBy plan.orderedOperations line = plan.marksStale line := by
  rw [removedBy, orderedOperations, (order_perm _).any_eq, Bool.eq_iff_iff, ← covers_union_stale]
  simp only [List.any_eq_true, mem_operations, LineRange.Covers]
  constructor
  · rintro ⟨operation, ⟨range, member, rfl⟩ | ⟨place, _, rfl⟩, removed⟩
    · exact ⟨range, member, removed⟩
    · exact absurd removed Bool.false_ne_true
  · rintro ⟨range, member, inside⟩
    exact ⟨_, .inl ⟨range, member, rfl⟩, inside⟩

/-- Where at most one item gives anything, the order of the items does not matter. -/
theorem flatMap_eq_of_perm {α β : Type} {f : α → List β} {items sorted : List α} (perm : items.Perm sorted)
    (apart : items.Pairwise fun a b => f a = [] ∨ f b = []) : sorted.flatMap f = items.flatMap f := by
  induction perm with
  | nil => rfl
  | cons a _ ih => rw [List.flatMap_cons, List.flatMap_cons, ih (List.pairwise_cons.mp apart).2]
  | swap a b rest =>
    have empty := (List.pairwise_cons.mp apart).1 a List.mem_cons_self
    simp only [List.flatMap_cons]
    rcases empty with empty | empty <;> rw [empty, List.nil_append, List.nil_append]
  | trans first _ ih ih' =>
    rw [ih' ((first.pairwise_iff fun empty => Or.symm empty).mp apart), ih apart]

/-- Insertions of a plan have different lines. -/
theorem insertions_apart (plan : Plan) :
    (plan.commentsByLine.map fun (line, comments) => Operation.insert line (joinWith ['\n'] comments)).Pairwise
      Apart := by
  refine List.pairwise_map.mpr ((commentsByLine_spec plan).1.imp ?_)
  intro earlier later before
  exact .inl before

theorem deletions_apart (plan : Plan) :
    ((LineRange.union (plan.map (·.stale))).map Operation.delete).Pairwise Apart := by
  refine List.pairwise_map.mpr ((LineRange.union_spec _).1.apart.imp ?_)
  intro earlier later before
  exact .inl (Nat.le_of_lt before)

theorem touches_of_mem_operations {plan : Plan} {operation : Operation} (member : operation ∈ plan.operations) :
    Touches operation := by
  rcases mem_operations.mp member with ⟨range, rangeMember, rfl⟩ | ⟨line, _, rfl⟩
  · exact (LineRange.union_spec _).1.filled range rangeMember
  · exact Nat.lt_succ_self line

/-- In order of application, a deletion touches only lines above those touched before it. -/
theorem orderedOperations_safe (plan : Plan) : plan.orderedOperations.Pairwise SafeBefore := by
  have perm := order_perm plan.operations
  have deletions : plan.orderedOperations.Pairwise fun a b =>
      ∀ range other, a = .delete range → b = .delete other → Apart a b := by
    refine (perm.pairwise_iff ?_).mpr (List.pairwise_append.mpr ⟨?_, ?_, ?_⟩)
    · intro a b apart range other same otherSame
      exact Or.symm (apart other range otherSame same)
    · exact (deletions_apart plan).imp fun apart _ _ _ _ => apart
    · exact (insertions_apart plan).imp fun apart _ _ _ _ => apart
    · intro a _ b member range other _ isDeletion
      obtain ⟨entry, _, rfl⟩ := List.mem_map.mp member
      cases isDeletion
  refine ((order_sorted plan.operations).and deletions).imp_of_mem ?_
  intro earlier later earlierMember laterMember ⟨sorted, apart⟩
  have earlierAnchor := anchor_eq (touches_of_mem_operations (perm.mem_iff.mp earlierMember))
  have laterAnchor := anchor_eq (touches_of_mem_operations (perm.mem_iff.mp laterMember))
  rw [mayPrecede_iff] at sorted
  cases later with
  | insert line text => trivial
  | delete range =>
    cases earlier with
    | insert line text =>
      simp only [SafeBefore, first, past, anchor, rank] at *
      omega
    | delete other =>
      have split := apart other range rfl rfl
      simp only [SafeBefore, Apart, first, past, anchor, rank] at *
      omega

/-- The texts that the operations of a plan put before a line are the lines of its comments there. -/
theorem textsAt_orderedOperations (plan : Plan) (line : Nat) :
    plan.orderedOperations.flatMap (textsAt line) = (plan.commentsAt line).flatMap (pieces '\n') := by
  obtain ⟨_, items, filled⟩ := commentsByLine_spec plan
  have apart : plan.operations.Pairwise fun a b => textsAt line a = [] ∨ textsAt line b = [] := by
    refine List.pairwise_append.mpr ⟨?_, ?_, ?_⟩
    · exact List.pairwise_map.mpr (List.pairwise_of_forall fun _ _ => .inl rfl)
    · refine (insertions_apart plan).imp ?_
      intro a b split
      rcases split with above | below
      · by_cases here : line < b.first
        · exact .inr (textsAt_eq_nil (.inl here))
        · exact .inl (textsAt_eq_nil (.inr (by omega)))
      · by_cases here : line < a.first
        · exact .inl (textsAt_eq_nil (.inl here))
        · exact .inr (textsAt_eq_nil (.inr (by omega)))
    · intro deletion member _ _
      obtain ⟨range, _, rfl⟩ := List.mem_map.mp member
      exact .inl rfl
  have ofDeletions : ((LineRange.union (plan.map (·.stale))).map Operation.delete).flatMap (textsAt line) = [] := by
    rw [List.flatMap_map]
    exact List.flatMap_eq_nil_iff.mpr fun _ _ => rfl
  rw [orderedOperations, flatMap_eq_of_perm (order_perm _).symm apart, operations, List.flatMap_append, ofDeletions,
    List.nil_append, List.flatMap_map, ← items, itemsAt, List.flatMap_assoc]
  apply List.flatMap_congr
  intro entry member
  by_cases here : entry.1 = line
  · simp only [textsAt, here, if_true]
    exact pieces_joinWith '\n' (filled entry member)
  · simp only [textsAt, here, if_false, List.flatMap_nil]

/-- A plan whose comments land before lines of a buffer that stay. -/
structure Regular (plan : Plan) (count : Nat) : Prop where
  inside : ∀ block ∈ plan, block.line < count
  stays : ∀ block ∈ plan, plan.marksStale block.line = false

/-- The lines that a plan puts before a line of a buffer. -/
def insertedAt (plan : Plan) (buffer : List Line) (line : Nat) : List Line :=
  ((plan.commentsAt line).flatMap (pieces '\n')).map fun text =>
    { text, ending := Document.endingAt buffer line }

theorem insertedAt_eq_nil_iff {plan : Plan} {buffer : List Line} {line : Nat} :
    plan.insertedAt buffer line = [] ↔ plan.commentsAt line = [] := by
  rw [insertedAt, List.map_eq_nil_iff, List.flatMap_eq_nil_iff]
  constructor
  · intro none
    by_contra filled
    obtain ⟨comment, member⟩ := List.exists_mem_of_ne_nil _ filled
    exact pieces_ne_nil '\n' comment (none comment member)
  · intro none comment member
    rw [none] at member
    exact absurd member List.not_mem_nil

theorem mem_of_commentsAt_ne_nil {plan : Plan} {line : Nat} (filled : plan.commentsAt line ≠ []) :
    ∃ block ∈ plan, block.line = line ∧ block.comments ≠ [] := by
  obtain ⟨comment, member⟩ := List.exists_mem_of_ne_nil _ filled
  obtain ⟨block, blockMember, same, inside⟩ := mem_commentsAt.mp member
  exact ⟨block, blockMember, same, List.ne_nil_of_mem inside⟩

theorem Regular.operations_apart {plan : Plan} {count : Nat} (regular : Regular plan count) :
    plan.operations.Pairwise Apart := by
  refine List.pairwise_append.mpr ⟨deletions_apart plan, insertions_apart plan, ?_⟩
  intro deletion deletionMember insertion insertionMember
  obtain ⟨range, rangeMember, rfl⟩ := List.mem_map.mp deletionMember
  obtain ⟨⟨line, comments⟩, entryMember, rfl⟩ := List.mem_map.mp insertionMember
  obtain ⟨rfl, filled⟩ := mem_commentsByLine.mp entryMember
  obtain ⟨block, member, rfl, _⟩ := mem_of_commentsAt_ne_nil filled
  have kept := regular.stays block member
  have outside : ¬ range.contains block.line = true := by
    intro inside
    have stale := (covers_union_stale plan block.line).mp ⟨range, rangeMember, inside⟩
    exact absurd (kept.symm.trans stale) Bool.false_ne_true
  rw [LineRange.contains_iff] at outside
  simp only [Apart, first, past]
  omega

theorem Regular.descending {plan : Plan} {count : Nat} (regular : Regular plan count) :
    Descending plan.orderedOperations :=
  order_descending regular.operations_apart fun _ => touches_of_mem_operations

theorem Regular.fits {plan : Plan} {buffer : List Line} (regular : Regular plan buffer.length) :
    ∀ operation ∈ plan.orderedOperations, Fits buffer operation := by
  intro operation member
  rcases mem_operations.mp ((order_perm plan.operations).mem_iff.mp member) with
    ⟨range, rangeMember, rfl⟩ | ⟨line, filled, rfl⟩
  · exact Nat.le_of_lt ((LineRange.union_spec _).1.filled range rangeMember)
  · obtain ⟨block, blockMember, rfl, _⟩ := mem_of_commentsAt_ne_nil filled
    exact regular.inside block blockMember

/-- A regular plan puts its comments before the lines they belong to and leaves the stale lines out, all with
respect to the buffer as it was. -/
theorem Regular.applyAll_eq_settle {plan : Plan} {buffer : List Line} (regular : Regular plan buffer.length) :
    applyAll plan.orderedOperations buffer = settle (plan.insertedAt buffer) plan.marksStale 0 buffer := by
  rw [Operation.applyAll_eq_settle regular.descending regular.fits]
  apply settle_congr
  · intro line _ _
    rw [insertedBy, textsAt_orderedOperations, insertedAt]
  · intro line _ _
    exact removedBy_orderedOperations plan line

end Plan

end RouteComments
