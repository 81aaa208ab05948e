import RouteComments.Proofs.Regeneration

set_option autoImplicit false

namespace RouteComments

open Text

namespace Plan

open Operation

/-- The lines of a document from one on, and what a plan makes of them: a line stays, or it is that of a block, and then
the comments of the plan stand above it in place of the generated ones. -/
inductive Woven (plan : Plan) (doc : Document) : Nat → List Line → List Line → Prop
  | done : Woven plan doc doc.lines.length [] []
  | kept {index : Nat} {line : Line} {source result : List Line} (found : doc.lines[index]? = some line)
      (stays : plan.marksStale index = false) (silent : plan.commentsAt index = [])
      (onward : Woven plan doc (index + 1) source result) : Woven plan doc index (line :: source) (line :: result)
  | commented {block : Block} {line : Line} {source result : List Line} (member : block ∈ plan)
      (found : doc.lines[block.line]? = some line) (onward : Woven plan doc (block.line + 1) source result) :
      Woven plan doc (runStart doc block.line)
        ((doc.lines.take block.line).drop (runStart doc block.line) ++ line :: source)
        (plan.insertedAt doc.lines block.line ++ line :: result)

section Woven

variable {plan : Plan} {doc : Document} {index : Nat}

/-- No block has its line below some place and its stale comments above it. -/
def Parts (plan : Plan) (doc : Document) (index : Nat) : Prop :=
  ∀ block ∈ plan, block.line < index ∨ index ≤ runStart doc block.line

theorem parts_zero (plan : Plan) (doc : Document) : Parts plan doc 0 :=
  fun _ _ => .inr (Nat.zero_le _)

variable (anchored : Anchored plan doc) (regular : Regular plan doc.lines.length)

include anchored regular

theorem parts_below {block : Block} (member : block ∈ plan) : Parts plan doc (block.line + 1) := by
  intro other otherMember
  by_cases above : other.line < block.line + 1
  · exact .inl above
  · refine .inr (Nat.succ_le_of_lt (Nat.lt_of_not_le fun start => ?_))
    -- the line of the block would be one of the stale comments of the other
    have stale := anchored.stale_of_run otherMember start (by omega)
    exact absurd ((regular.stays block member).symm.trans stale) Bool.false_ne_true

omit regular in
/-- Where no stale comments start and no line of a block is, a line stays as it is. -/
theorem quiet_of_parts (parts : Parts plan doc index) (inside : index < doc.lines.length)
    (none : ∀ block ∈ plan, runStart doc block.line ≠ index) :
    plan.marksStale index = false ∧ plan.commentsAt index = [] := by
  constructor
  · rw [Bool.eq_false_iff]
    intro stale
    obtain ⟨block, member, contains⟩ := List.any_eq_true.mp stale
    have bounds := LineRange.contains_iff.mp contains
    rw [anchored.stale_stop member, anchored.stale block member] at bounds
    have start : runStart doc block.line ≤ index := bounds.1
    rcases parts block member with above | below
    · omega
    · exact none block member (Nat.le_antisymm start below)
  · by_contra filled
    obtain ⟨block, member, rfl, _⟩ := mem_of_commentsAt_ne_nil filled
    have start := runStart_le (Nat.le_of_lt inside)
    rcases parts block member with above | below
    · omega
    · exact none block member (Nat.le_antisymm start below)

omit anchored regular in
theorem drop_eq_append_cons {line place : Nat} {found : Line} (inside : doc.lines[line]? = some found)
    (start : place ≤ line) :
    doc.lines.drop place = (doc.lines.take line).drop place ++ found :: doc.lines.drop (line + 1) := by
  obtain ⟨bound, rfl⟩ := List.getElem?_eq_some_iff.mp inside
  have split := List.take_append_drop (line - place) (doc.lines.drop place)
  rw [List.drop_drop, Nat.add_sub_cancel' start] at split
  rw [← List.drop_eq_getElem_cons bound, List.drop_take, split]

/-- The stale comments above a block go, and its own stand above its line. -/
theorem settle_runStart {block : Block} (member : block ∈ plan) (line : Line) :
    settle (plan.insertedAt doc.lines) plan.marksStale (runStart doc block.line)
        ((doc.lines.take block.line).drop (runStart doc block.line) ++ line :: doc.lines.drop (block.line + 1)) =
      plan.insertedAt doc.lines block.line ++ line ::
        settle (plan.insertedAt doc.lines) plan.marksStale (block.line + 1) (doc.lines.drop (block.line + 1)) := by
  have inside := Nat.le_of_lt (anchored.inside block member)
  have length := runStart_add_length inside
  have stale : ∀ k, runStart doc block.line ≤ k → k < block.line → plan.marksStale k = true :=
    fun k lower upper => anchored.stale_of_run member lower upper
  rw [settle_append, settle_removed, length, settle, regular.stays block member]
  · simp only [Bool.false_eq_true, if_false, List.nil_append, List.append_assoc, List.singleton_append]
  · exact fun k lower upper => regular.insertedAt_stale (stale k lower (by omega))
  · exact fun k lower upper => stale k lower (by omega)

/-- From a place between the blocks on, a plan weaves its comments into the lines of a document. -/
theorem woven_drop (parts : Parts plan doc index) (inside : index ≤ doc.lines.length) :
    Woven plan doc index (doc.lines.drop index)
      (settle (plan.insertedAt doc.lines) plan.marksStale index (doc.lines.drop index)) := by
  -- downwards from the end of the document, a line or the line of a block with the comments above it at a time
  induction remaining : doc.lines.length - index using Nat.strong_induction_on generalizing index with
  | h count ih =>
    rcases Nat.eq_or_lt_of_le inside with rfl | before
    · rw [List.drop_length, settle]
      exact .done
    · by_cases starts : ∃ block ∈ plan, runStart doc block.line = index
      · obtain ⟨block, member, rfl⟩ := starts
        have bound := anchored.inside block member
        have found := List.getElem?_eq_getElem bound
        have start := runStart_le (Nat.le_of_lt bound)
        rw [drop_eq_append_cons found start, settle_runStart anchored regular member]
        exact .commented member found (ih _ (by omega) (parts_below anchored regular member) bound rfl)
      · have found := List.getElem?_eq_getElem before
        have none : ∀ block ∈ plan, runStart doc block.line ≠ index :=
          fun block member same => starts ⟨block, member, same⟩
        obtain ⟨stays, silent⟩ := quiet_of_parts anchored parts before none
        have onward : Parts plan doc (index + 1) := by
          intro block member
          have apart := none block member
          rcases parts block member with above | below
          · exact .inl (by omega)
          · exact .inr (by omega)
        rw [List.drop_eq_getElem_cons before, settle, insertedAt_eq_nil_iff.mpr silent, stays]
        exact .kept found stays silent (ih _ (by omega) onward before rfl)

/-- A plan weaves its comments into all the lines of a document. -/
theorem woven_settled : Woven plan doc 0 doc.lines (plan.settled doc doc.lines.length) := by
  have whole := woven_drop anchored regular (parts_zero plan doc) (Nat.zero_le _)
  rwa [List.drop_zero, ← settled_all] at whole

omit anchored regular in
/-- Up to the next comments that the plan writes, the lines are the same. -/
theorem Woven.shared {source result : List Line} (woven : Woven plan doc index source result) :
    source = result ∨ ∃ block ∈ plan, ∃ front back written, source = front ++ back ∧ back ≠ [] ∧
      result = front ++ (plan.insertedAt doc.lines block.line ++ written) ∧
      index + front.length = runStart doc block.line := by
  induction woven with
  | done => exact .inl rfl
  | @kept index line source result found stays silent onward ih =>
    rcases ih with rfl | ⟨block, member, front, back, written, rfl, filled, rfl, place⟩
    · exact .inl rfl
    · refine .inr ⟨block, member, line :: front, back, written, rfl, filled, rfl, ?_⟩
      rw [List.length_cons]
      omega
  | @commented block line source result member found onward ih =>
    refine .inr ⟨block, member, [], _, line :: result, rfl, ?_, rfl, rfl⟩
    exact List.append_ne_nil_of_right_ne_nil _ (List.cons_ne_nil line source)

end Woven

end Plan

end RouteComments
