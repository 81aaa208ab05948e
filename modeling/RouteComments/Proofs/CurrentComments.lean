import Mathlib.Algebra.Ring.Nat
import RouteComments.Proofs.DeletionSafety
import RouteComments.Proofs.SettledLines

set_option autoImplicit false

namespace RouteComments

open Text

namespace Plan

open Operation

/-- Every comment of a plan runs over one line and holds no at sign. -/
def Quiet (plan : Plan) : Prop :=
  ∀ block ∈ plan, ∀ comment ∈ block.comments, '\n' ∉ comment ∧ '@' ∉ comment

instance (plan : Plan) : Decidable (Quiet plan) :=
  inferInstanceAs (Decidable (∀ block ∈ plan, ∀ comment ∈ block.comments, '\n' ∉ comment ∧ '@' ∉ comment))

/-- The lines of a document that a block would delete. -/
def standing (doc : Document) (block : Block) : List Line :=
  (doc.lines.take block.stale.stop).drop block.stale.start

/-- The comments that a plan would write are those that it would delete. -/
def IsCurrent (plan : Plan) (doc : Document) : Prop :=
  ∀ block ∈ plan, standing doc block = plan.insertedAt doc.lines block.line

instance (plan : Plan) (doc : Document) : Decidable (IsCurrent plan doc) :=
  inferInstanceAs (Decidable (∀ block ∈ plan, standing doc block = plan.insertedAt doc.lines block.line))

section Marks

variable {doc : Document} {baseUrl : Text}

/-- The line of a mapping holds an at sign. -/
theorem mark_of_planned {block : Block} (planned : block ∈ ofDocument doc baseUrl) :
    ∃ line, doc.lines[block.line]? = some line ∧ '@' ∈ line.text := by
  obtain ⟨occurrence, member, same⟩ := line_eq planned
  obtain ⟨⟨offset, kind, args⟩, found, rfl⟩ := List.mem_map.mp (List.mem_filter.mp member).1
  obtain ⟨front, back, rest, shape, place, read⟩ := mem_matchesFrom Mapping.mapping?_consumes found
  obtain ⟨behind, rfl, _⟩ := Mapping.mapping?_spec read
  rw [same, show offset = bytes front by omega]
  exact Document.mem_line_of_split shape (by decide) (by decide)

/-- The number of at signs in a line. -/
def marks (line : Line) : Nat :=
  line.text.count '@'

theorem count_render (lines : List Line) : (Line.render lines).count '@' = (lines.map marks).sum := by
  induction lines with
  | nil => rfl
  | cons line rest ih =>
    have none : line.ending.text.count '@' = 0 := by cases line.ending <;> rfl
    rw [Line.render_cons, List.count_append, List.count_append, ih, none, List.map_cons, List.sum_cons, marks]
    rfl

theorem not_mem_render {lines : List Line} (unmarked : ∀ line ∈ lines, '@' ∉ line.text) : '@' ∉ Line.render lines := by
  rw [← List.count_eq_zero, count_render, List.sum_eq_zero_iff_forall_eq_nat, List.forall_mem_map]
  exact fun line member => List.count_eq_zero.mpr (unmarked line member)

/-- The number of at signs in a line of a document. -/
def marksAt (lines : List Line) (index : Nat) : Nat :=
  (lines[index]?.map marks).getD 0

theorem sum_marks_eq_range (lines : List Line) :
    (lines.map marks).sum = ((List.range lines.length).map (marksAt lines)).sum := by
  congr 1
  apply List.ext_getElem
  · rw [List.length_map, List.length_map, List.length_range]
  · intro index left right
    rw [List.length_map] at left
    rw [List.getElem_map, List.getElem_map, List.getElem_range, marksAt, List.getElem?_eq_getElem left]
    rfl

/-- Lines that were not inserted carry the at signs of a traced buffer, if no inserted line has one. -/
theorem sum_marks_traced {lines : List Line} {traced : Traced}
    (faithful : ∀ index line, (some index, line) ∈ traced → marks line = marksAt lines index)
    (silent : ∀ line, (none, line) ∈ traced → marks line = 0) :
    (traced.buffer.map marks).sum = ((traced.filterMap (·.1)).map (marksAt lines)).sum := by
  induction traced with
  | nil => rfl
  | cons entry rest ih =>
    have others := ih (fun index line member => faithful index line (List.mem_cons_of_mem _ member))
      (fun line member => silent line (List.mem_cons_of_mem _ member))
    obtain ⟨origin, line⟩ := entry
    rw [Traced.buffer, List.map_cons, List.map_cons, List.sum_cons, ← Traced.buffer, others]
    cases origin with
    | none =>
      rw [silent line List.mem_cons_self, Nat.zero_add]
      rfl
    | some index =>
      rw [faithful index line List.mem_cons_self]
      rfl

theorem mem_insertedTexts {traced : Traced} {line : Line} (member : (none, line) ∈ traced) :
    line.text ∈ traced.insertedTexts :=
  List.mem_map.mpr ⟨(none, line), List.mem_filter.mpr ⟨member, rfl⟩, rfl⟩

/-- Where a plan without at signs changes nothing, no stale line has one. -/
theorem not_mem_stale_of_unchanged (quiet : Quiet (ofDocument doc baseUrl))
    (unchanged : (ofDocument doc baseUrl).apply doc = doc.text) {index : Nat} {line : Line}
    (found : doc.lines[index]? = some line) (stale : (ofDocument doc baseUrl).marksStale index = true) :
    '@' ∉ line.text := by
  obtain ⟨traced, buffer, kept, faithful, inserted⟩ := exists_trace doc baseUrl
  have silent : ∀ line, (none, line) ∈ traced → marks line = 0 := by
    intro line member
    have among := inserted.mem_iff.mp (mem_insertedTexts member)
    obtain ⟨block, planned, inBlock⟩ := List.mem_flatMap.mp among
    obtain ⟨comment, commentMember, inComment⟩ := List.mem_flatMap.mp inBlock
    obtain ⟨unbroken, free⟩ := quiet block planned comment commentMember
    rw [pieces_eq_singleton unbroken, List.mem_singleton] at inComment
    rw [marks, List.count_eq_zero, inComment]
    exact free
  have carried : (traced.buffer.map marks).sum = ((traced.filterMap (·.1)).map (marksAt doc.lines)).sum := by
    refine sum_marks_traced (fun index line member => ?_) silent
    obtain ⟨original, there, same, _⟩ := faithful index line member
    rw [marks, same, marksAt, there]
    rfl
  have total : (doc.lines.map marks).sum = (traced.buffer.map marks).sum := by
    rw [← count_render, ← count_render, buffer, Document.lines, Line.render_read]
    rw [apply, Document.edited] at unchanged
    rw [Document.lines] at unchanged
    rw [unchanged]
  have split := (List.filter_append_perm (fun index => !(ofDocument doc baseUrl).marksStale index)
    (List.range doc.lines.length)).map (marksAt doc.lines) |>.sum_nat
  rw [sum_marks_eq_range, carried, kept] at total
  rw [List.map_append, List.sum_append_nat, ← total] at split
  have nothing := List.sum_eq_zero_iff_forall_eq_nat.mp (Nat.add_left_cancel (split.trans (Nat.add_zero _).symm))
  have inside : index < doc.lines.length := (List.getElem?_eq_some_iff.mp found).1
  have zero := nothing (marksAt doc.lines index) (List.mem_map.mpr ⟨index, List.mem_filter.mpr
    ⟨List.mem_range.mpr inside, by rw [stale]; rfl⟩, rfl⟩)
  rw [marksAt, found] at zero
  exact List.count_eq_zero.mp zero

end Marks

section Inserted

variable {doc : Document} {baseUrl : Text}

theorem Quiet.recognised (quiet : Quiet (ofDocument doc baseUrl)) : Recognised (ofDocument doc baseUrl) := by
  intro block planned comment member
  have unbroken := (quiet block planned comment member).1
  exact ⟨unbroken, isGenerated_of_unbroken planned member unbroken⟩

theorem not_mem_of_inserted (quiet : Quiet (ofDocument doc baseUrl)) {buffer : List Line} {index : Nat} {line : Line}
    (member : line ∈ (ofDocument doc baseUrl).insertedAt buffer index) : '@' ∉ line.text := by
  rw [quiet.recognised.insertedAt_eq] at member
  obtain ⟨comment, commentMember, rfl⟩ := List.mem_map.mp member
  obtain ⟨block, planned, _, inside⟩ := mem_commentsAt.mp commentMember
  exact (quiet block planned comment inside).2

end Inserted

section Settled

variable {doc : Document} {baseUrl : Text} {index : Nat}

theorem standing_eq {block : Block} (planned : block ∈ ofDocument doc baseUrl) :
    standing doc block = (doc.lines.take block.line).drop (runStart doc block.line) := by
  rw [standing, stale_stop planned, stale_eq planned]
  rfl

/-- Directly below a stale line comes another one, or the mapping that it is stale for. -/
theorem below_stale (stale : (ofDocument doc baseUrl).marksStale index = true) :
    (ofDocument doc baseUrl).marksStale (index + 1) = true ∨
      (ofDocument doc baseUrl).commentsAt (index + 1) ≠ [] := by
  obtain ⟨block, planned, inside⟩ := List.any_eq_true.mp stale
  have bounds := LineRange.contains_iff.mp inside
  rw [stale_stop planned] at bounds
  by_cases last : index + 1 = block.line
  · rw [last]
    exact .inr (commentsAt_line_ne_nil planned)
  · refine .inl (List.any_eq_true.mpr ⟨block, planned, LineRange.contains_iff.mpr ⟨by omega, ?_⟩⟩)
    rw [stale_stop planned]
    omega

end Settled

section FixedPoint

variable {doc : Document} {baseUrl : Text}

/-- Up to the start of the document or a line that stays, a current document settles to itself. -/
theorem IsCurrent.settled_eq_take (current : IsCurrent (ofDocument doc baseUrl) doc)
    (regular : Regular (ofDocument doc baseUrl) doc.lines.length) {count : Nat} (inside : count ≤ doc.lines.length)
    (stays : ∀ above, count = above + 1 → (ofDocument doc baseUrl).marksStale above = false) :
    (ofDocument doc baseUrl).settled doc count = doc.lines.take count := by
  induction count using Nat.strong_induction_on with
  | h count ih =>
    cases count with
    | zero => rw [settled_zero, List.take_zero]
    | succ above =>
      have found := List.getElem?_eq_getElem (show above < doc.lines.length by omega)
      rw [settled_succ _ found, stays above rfl, List.take_succ_eq_append_getElem (by omega)]
      simp only [Bool.false_eq_true, if_false]
      congr 1
      by_cases silent : (ofDocument doc baseUrl).commentsAt above = []
      · rw [insertedAt_eq_nil_iff.mpr silent, List.append_nil]
        apply ih above (by omega) (by omega)
        rintro before rfl
        rw [Bool.eq_false_iff]
        intro stale
        rcases below_stale stale with next | filled
        · exact absurd ((stays _ rfl).symm.trans next) Bool.false_ne_true
        · exact filled silent
      · obtain ⟨block, planned, rfl, _⟩ := mem_of_commentsAt_ne_nil silent
        have start := runStart_le (show block.line ≤ doc.lines.length by omega)
        rw [(anchored_ofDocument doc baseUrl).settled_runStart regular planned, ← current block planned,
          standing_eq planned, ih _ (by omega) (by omega), ← take_eq_take_append start]
        intro before first
        have foundBefore := List.getElem?_eq_getElem (show before < doc.lines.length by omega)
        exact (anchored_ofDocument doc baseUrl).not_stale_of_not_generated foundBefore
          (not_isGenerated_above_run first foundBefore)

theorem IsCurrent.regular (current : IsCurrent (ofDocument doc baseUrl) doc)
    (quiet : Quiet (ofDocument doc baseUrl)) : Regular (ofDocument doc baseUrl) doc.lines.length where
  inside _ planned := line_lt planned
  stays block planned := by
    rw [Bool.eq_false_iff]
    intro stale
    obtain ⟨other, otherPlanned, inside⟩ := List.any_eq_true.mp stale
    obtain ⟨line, found, mark⟩ := mark_of_planned planned
    have bounds := LineRange.contains_iff.mp inside
    -- The line of the mapping would be one of the inserted comments, which have no at sign.
    have member : line ∈ standing doc other := by
      apply List.mem_of_getElem? (i := block.line - other.stale.start)
      rw [standing, List.getElem?_drop, Nat.add_sub_cancel' bounds.1, List.getElem?_take_of_lt bounds.2, found]
    rw [current other otherPlanned] at member
    exact not_mem_of_inserted quiet member mark

/-- A document whose planned comments stand already is left as it is. -/
theorem IsCurrent.apply_eq (current : IsCurrent (ofDocument doc baseUrl) doc)
    (quiet : Quiet (ofDocument doc baseUrl)) : (ofDocument doc baseUrl).apply doc = doc.text := by
  have regular := current.regular quiet
  rw [regular.apply_eq_render, current.settled_eq_take regular (Nat.le_refl _), List.take_length, Document.lines,
    Line.render_read]
  intro above last
  rw [show above = doc.lines.length - 1 by omega]
  exact (anchored_ofDocument doc baseUrl).last_not_stale

/-- Whether a line holds an at sign. -/
def hasMark (line : Line) : Bool :=
  line.text.contains '@'

theorem hasMark_iff {line : Line} : hasMark line = true ↔ '@' ∈ line.text := by
  rw [hasMark, List.contains_iff_mem]

theorem countP_inserted (quiet : Quiet (ofDocument doc baseUrl)) (index : Nat) :
    ((ofDocument doc baseUrl).insertedAt doc.lines index).countP hasMark = 0 := by
  rw [List.countP_eq_zero]
  intro line member
  rw [hasMark_iff]
  exact not_mem_of_inserted quiet member

/-- Where no stale line has an at sign, the lines with one stay as many up to every place. -/
theorem countP_settled (quiet : Quiet (ofDocument doc baseUrl))
    (free : ∀ index line, doc.lines[index]? = some line → (ofDocument doc baseUrl).marksStale index = true →
      '@' ∉ line.text) {count : Nat} (inside : count ≤ doc.lines.length) :
    ((ofDocument doc baseUrl).settled doc count).countP hasMark = (doc.lines.take count).countP hasMark := by
  induction count with
  | zero => rw [settled_zero, List.take_zero]
  | succ index ih =>
    have found := List.getElem?_eq_getElem (show index < doc.lines.length by omega)
    rw [settled_succ _ found, List.take_succ_eq_append_getElem (by omega), List.countP_append, List.countP_append,
      List.countP_append, ih (by omega), countP_inserted quiet, Nat.add_zero]
    congr 1
    split
    · rename_i stale
      have silent := mt hasMark_iff.mp (free index _ found stale)
      rw [List.countP_nil, List.countP_singleton, if_neg silent]
    · rfl

/-- Two ways to split a list at a marked item are the same if as many marked items stand before. -/
theorem eq_of_countP_eq {α : Type} {marked : α → Bool} {front front' back back' : List α} {a a' : α}
    (same : front ++ a :: back = front' ++ a' :: back') (mark : marked a = true) (mark' : marked a' = true)
    (count : front.countP marked = front'.countP marked) : front = front' := by
  induction front generalizing front' with
  | nil =>
    cases front' with
    | nil => rfl
    | cons b rest =>
      rw [List.nil_append, List.cons_append, List.cons.injEq] at same
      rw [← same.1, List.countP_nil, List.countP_cons_of_pos mark] at count
      omega
  | cons b rest ih =>
    cases front' with
    | nil =>
      rw [List.nil_append, List.cons_append, List.cons.injEq] at same
      rw [same.1, List.countP_nil, List.countP_cons_of_pos mark'] at count
      omega
    | cons b' rest' =>
      rw [List.cons_append, List.cons_append, List.cons.injEq] at same
      obtain ⟨rfl, same⟩ := same
      rw [List.countP_cons, List.countP_cons] at count
      rw [ih same (Nat.add_right_cancel count)]

/-- In a document that settles to itself, a mapping and all that stands above it keep their place. -/
theorem settled_append_inserted (regular : Regular (ofDocument doc baseUrl) doc.lines.length)
    (quiet : Quiet (ofDocument doc baseUrl))
    (unchanged : (ofDocument doc baseUrl).settled doc doc.lines.length = doc.lines)
    (free : ∀ index line, doc.lines[index]? = some line → (ofDocument doc baseUrl).marksStale index = true →
      '@' ∉ line.text) {block : Block} (planned : block ∈ ofDocument doc baseUrl) :
    (ofDocument doc baseUrl).settled doc block.line ++ (ofDocument doc baseUrl).insertedAt doc.lines block.line =
      doc.lines.take block.line := by
  obtain ⟨line, found, mark⟩ := mark_of_planned planned
  obtain ⟨inside, rfl⟩ := List.getElem?_eq_some_iff.mp found
  have split : (ofDocument doc baseUrl).settled doc block.line ++
      (ofDocument doc baseUrl).insertedAt doc.lines block.line ++ doc.lines[block.line] ::
        settle ((ofDocument doc baseUrl).insertedAt doc.lines) (ofDocument doc baseUrl).marksStale (block.line + 1)
          (doc.lines.drop (block.line + 1)) =
      doc.lines.take block.line ++ doc.lines[block.line] :: doc.lines.drop (block.line + 1) := by
    rw [← List.drop_eq_getElem_cons inside, List.take_append_drop]
    rw [settled_all, settle_take_drop _ _ (block.line + 1), ← settled, settled_succ _ found,
      regular.stays block planned] at unchanged
    simpa using unchanged
  refine eq_of_countP_eq split (hasMark_iff.mpr mark) (hasMark_iff.mpr mark) ?_
  rw [List.countP_append, countP_inserted quiet, Nat.add_zero]
  exact countP_settled quiet free (Nat.le_of_lt inside)

/-- The comments of a mapping are then the whole run of generated comments above it: such a run ends at a line that
is none of them, and so do the lines that settle before it. -/
theorem length_settled_runStart (quiet : Quiet (ofDocument doc baseUrl)) {block : Block}
    (planned : block ∈ ofDocument doc baseUrl)
    (aligned : (ofDocument doc baseUrl).settled doc (runStart doc block.line) ++
      (ofDocument doc baseUrl).insertedAt doc.lines block.line = doc.lines.take block.line) :
    ((ofDocument doc baseUrl).settled doc (runStart doc block.line)).length = runStart doc block.line := by
  have inside := Nat.le_of_lt (line_lt planned)
  have start := runStart_le inside
  have length := congrArg List.length aligned
  rw [List.length_append, List.length_take_of_le inside] at length
  cases first : runStart doc block.line with
  | zero => rw [settled_zero, List.length_nil]
  | succ above =>
    rw [first] at aligned length start
    have found := List.getElem?_eq_getElem (show above < doc.lines.length by omega)
    have own := not_isGenerated_above_run first found
    have ends : (ofDocument doc baseUrl).settled doc (above + 1) =
        (ofDocument doc baseUrl).settled doc above ++ (ofDocument doc baseUrl).insertedAt doc.lines above ++
          [doc.lines[above]] := by
      rw [settled_succ _ found, (anchored_ofDocument doc baseUrl).not_stale_of_not_generated found own]
      rfl
    rcases Nat.lt_trichotomy ((ofDocument doc baseUrl).settled doc (above + 1)).length (above + 1) with
      shorter | same | longer
    · -- The line above the run would be an inserted comment.
      have there : (_ ++ _)[above]? = (doc.lines.take block.line)[above]? := congrArg (·[above]?) aligned
      rw [List.getElem?_append_right (by omega), List.getElem?_take_of_lt (by omega), found] at there
      have generated := (quiet.recognised.inserted_spec (List.mem_of_getElem? there)).1
      exact absurd (own.symm.trans generated) Bool.false_ne_true
    · exact same
    · -- The line above the run would stand in the run.
      obtain ⟨last, lastEq⟩ : ∃ last, ((ofDocument doc baseUrl).settled doc (above + 1)).length = last + 1 :=
        ⟨_, (Nat.succ_pred_eq_of_pos (by omega)).symm⟩
      have lower : runStart doc block.line ≤ last := by omega
      have upper : last < block.line := by omega
      have there : (_ ++ _)[last]? = (doc.lines.take block.line)[last]? := congrArg (·[last]?) aligned
      rw [List.getElem?_append_left (by omega), List.getElem?_take_of_lt upper, ends] at there
      rw [ends, List.length_append, List.length_singleton] at lastEq
      rw [← Nat.add_right_cancel lastEq, List.getElem?_concat_length] at there
      have generated := isGenerated_of_run inside lower upper (Nat.add_right_cancel lastEq ▸ there.symm)
      exact absurd (own.symm.trans generated) Bool.false_ne_true

theorem standing_eq_inserted (regular : Regular (ofDocument doc baseUrl) doc.lines.length)
    (quiet : Quiet (ofDocument doc baseUrl))
    (unchanged : (ofDocument doc baseUrl).settled doc doc.lines.length = doc.lines)
    (free : ∀ index line, doc.lines[index]? = some line → (ofDocument doc baseUrl).marksStale index = true →
      '@' ∉ line.text) {block : Block} (planned : block ∈ ofDocument doc baseUrl) :
    standing doc block = (ofDocument doc baseUrl).insertedAt doc.lines block.line := by
  have aligned := settled_append_inserted regular quiet unchanged free planned
  rw [(anchored_ofDocument doc baseUrl).settled_runStart regular planned] at aligned
  have length := length_settled_runStart quiet planned aligned
  rw [standing_eq planned, ← aligned, List.drop_append_of_le_length length.ge, List.drop_of_length_le length.le,
    List.nil_append]

theorem regular_of_unchanged (quiet : Quiet (ofDocument doc baseUrl))
    (unchanged : (ofDocument doc baseUrl).apply doc = doc.text) :
    Regular (ofDocument doc baseUrl) doc.lines.length where
  inside _ planned := line_lt planned
  stays block planned := by
    rw [Bool.eq_false_iff]
    intro stale
    obtain ⟨line, found, mark⟩ := mark_of_planned planned
    exact not_mem_stale_of_unchanged quiet unchanged found stale mark

theorem settled_eq_of_unchanged (quiet : Quiet (ofDocument doc baseUrl))
    (regular : Regular (ofDocument doc baseUrl) doc.lines.length)
    (unchanged : (ofDocument doc baseUrl).apply doc = doc.text) :
    (ofDocument doc baseUrl).settled doc doc.lines.length = doc.lines := by
  rw [regular.apply_eq_render] at unchanged
  rw [← Line.read_render (settled_canonical (anchored_ofDocument doc baseUrl) quiet.recognised), unchanged,
    Document.lines]

/-- Applying the plan of a document changes nothing exactly when the planned comments stand already. -/
theorem apply_eq_text_iff (quiet : Quiet (ofDocument doc baseUrl)) :
    (ofDocument doc baseUrl).apply doc = doc.text ↔ IsCurrent (ofDocument doc baseUrl) doc := by
  constructor
  · intro unchanged block planned
    have regular := regular_of_unchanged quiet unchanged
    exact standing_eq_inserted regular quiet (settled_eq_of_unchanged quiet regular unchanged)
      (fun index line found stale => not_mem_stale_of_unchanged quiet unchanged found stale) planned
  · exact fun current => current.apply_eq quiet

end FixedPoint

end Plan

end RouteComments
