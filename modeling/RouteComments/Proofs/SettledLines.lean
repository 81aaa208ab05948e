import RouteComments.Proofs.GeneratedComments

set_option autoImplicit false

namespace RouteComments

open Text

namespace Plan

open Operation

section Inserted

variable {plan : Plan}

/-- Every comment of a plan runs over one line and is recognised as generated. -/
def Recognised (plan : Plan) : Prop :=
  ∀ block ∈ plan, ∀ comment ∈ block.comments, '\n' ∉ comment ∧ Comment.isGenerated comment = true

theorem comment_closed {block : Block} {comment : Text} (member : comment ∈ block.comments) :
    comment.getLast? ≠ some '\r' := by
  obtain ⟨endpoint, _, rfl⟩ := List.mem_map.mp member
  intro last
  exact absurd (getLast?_dropEndWhile last) (by decide)

theorem Recognised.insertedAt_eq (recognised : Recognised plan) (buffer : List Line) (line : Nat) :
    plan.insertedAt buffer line =
      (plan.commentsAt line).map fun text => { text, ending := Document.endingAt buffer line } := by
  have single : (plan.commentsAt line).flatMap (pieces '\n') = plan.commentsAt line := by
    rw [List.flatMap_congr (g := fun comment => [comment]), List.flatMap_singleton']
    intro comment member
    obtain ⟨block, planned, _, inside⟩ := mem_commentsAt.mp member
    exact pieces_eq_singleton (recognised block planned comment inside).1
  rw [insertedAt, single]

/-- A line that a recognised plan inserts is a generated comment that ends in a line break. -/
theorem Recognised.inserted_spec (recognised : Recognised plan) {buffer : List Line} {index : Nat} {line : Line}
    (member : line ∈ plan.insertedAt buffer index) :
    Comment.isGenerated line.text = true ∧ Line.Whole line ∧ line.ending.breaksLine = true := by
  rw [recognised.insertedAt_eq] at member
  obtain ⟨comment, commentMember, rfl⟩ := List.mem_map.mp member
  obtain ⟨block, planned, _, inside⟩ := mem_commentsAt.mp commentMember
  obtain ⟨unbroken, generated⟩ := recognised block planned comment inside
  exact ⟨generated, ⟨unbroken, fun _ => comment_closed inside⟩, Ending.forInsertion_breaksLine _ _⟩

theorem ending_of_mem_insertedAt {buffer : List Line} {index : Nat} {line : Line}
    (member : line ∈ plan.insertedAt buffer index) : line.ending = Document.endingAt buffer index := by
  obtain ⟨text, _, rfl⟩ := List.mem_map.mp member
  rfl

theorem mem_settle {inserted : Nat → List Line} {removed : Nat → Bool} {index : Nat} {lines : List Line} {line : Line}
    (member : line ∈ settle inserted removed index lines) : (∃ k, line ∈ inserted k) ∨ line ∈ lines := by
  induction lines generalizing index with
  | nil => exact absurd member List.not_mem_nil
  | cons first rest ih =>
    rw [settle, List.append_assoc, List.mem_append, List.mem_append] at member
    rcases member with before | here | later
    · exact .inl ⟨index, before⟩
    · split at here
      · exact absurd here List.not_mem_nil
      · exact .inr (List.mem_singleton.mp here ▸ List.mem_cons_self)
    · exact (ih later).imp id (List.mem_cons_of_mem _)

/-- Lines stay canonical when lines that break are put before them and the last line is kept. -/
theorem settle_canonical {inserted : Nat → List Line} {removed : Nat → Bool} {lines : List Line}
    (canonical : Line.Canonical lines) (keeps : removed (lines.length - 1) = false)
    (breaking : ∀ k, ∀ line ∈ inserted k, Line.Whole line ∧ line.ending.breaksLine = true) :
    Line.Canonical (settle inserted removed 0 lines) := by
  obtain ⟨front, last, rfl, frontBreaks, ends⟩ := canonical
  rw [List.length_append, List.length_singleton, Nat.add_sub_cancel] at keeps
  refine ⟨settle inserted removed 0 front ++ inserted front.length, last, ?_, ?_, ends⟩
  · rw [settle_append, Nat.zero_add, settle, keeps]
    simp only [settle, Bool.false_eq_true, if_false, List.append_nil, List.append_assoc]
  · intro line member
    rcases List.mem_append.mp member with member | member
    · rcases mem_settle member with ⟨k, inside⟩ | inside
      · exact breaking k line inside
      · exact frontBreaks line inside
    · exact breaking _ line member

end Inserted

section Settled

variable {plan : Plan} {doc : Document} {index : Nat} {line : Line}

/-- What the first lines of a document become. -/
def settled (plan : Plan) (doc : Document) (count : Nat) : List Line :=
  settle (plan.insertedAt doc.lines) plan.marksStale 0 (doc.lines.take count)

theorem take_eq_take_append {items : List Line} {start stop : Nat} (forward : start ≤ stop) :
    items.take stop = items.take start ++ (items.take stop).drop start := by
  have whole := List.take_append_drop start (items.take stop)
  rw [List.take_take, Nat.min_eq_left forward] at whole
  exact whole.symm

theorem settled_zero (plan : Plan) (doc : Document) : plan.settled doc 0 = [] := by
  rw [settled, List.take_zero, settle]

theorem settled_succ (plan : Plan) (found : doc.lines[index]? = some line) :
    plan.settled doc (index + 1) =
      plan.settled doc index ++ plan.insertedAt doc.lines index ++ (if plan.marksStale index then [] else [line]) := by
  obtain ⟨inside, rfl⟩ := List.getElem?_eq_some_iff.mp found
  rw [settled, List.take_succ_eq_append_getElem inside, settle_append, ← settled, Nat.zero_add,
    List.length_take_of_le (Nat.le_of_lt inside), settle, settle, List.append_nil, List.append_assoc]

theorem settled_all (plan : Plan) (doc : Document) :
    plan.settled doc doc.lines.length = settle (plan.insertedAt doc.lines) plan.marksStale 0 doc.lines := by
  rw [settled, List.take_length]

theorem settled_canonical (anchored : Anchored plan doc) (recognised : Recognised plan) :
    Line.Canonical (plan.settled doc doc.lines.length) := by
  rw [settled_all]
  refine settle_canonical (Line.canonical_read doc.text) anchored.last_not_stale ?_
  exact fun k line member => (recognised.inserted_spec member).2

/-- A regular plan makes the text of the settled lines. -/
theorem Regular.apply_eq_render (regular : Regular plan doc.lines.length) :
    plan.apply doc = Line.render (plan.settled doc doc.lines.length) := by
  rw [apply, Document.edited, regular.applyAll_eq_settle, settled_all]

/-- A run of stale lines that get no comments leaves nothing. -/
theorem settled_eq_of_stale {start stop : Nat} (forward : start ≤ stop) (inside : stop ≤ doc.lines.length)
    (stale : ∀ k, start ≤ k → k < stop → plan.marksStale k = true)
    (silent : ∀ k, start ≤ k → k < stop → plan.insertedAt doc.lines k = []) :
    plan.settled doc stop = plan.settled doc start := by
  have length : ((doc.lines.take stop).drop start).length = stop - start := by
    rw [List.length_drop, List.length_take_of_le inside]
  rw [settled, take_eq_take_append forward, settle_append, ← settled, Nat.zero_add,
    List.length_take_of_le (Nat.le_trans forward inside),
    settle_removed, List.append_nil]
  · exact fun k lower upper => silent k lower (by omega)
  · exact fun k lower upper => stale k lower (by omega)

theorem Anchored.not_stale_of_not_generated (anchored : Anchored plan doc) (found : doc.lines[index]? = some line)
    (own : Comment.isGenerated line.text = false) : plan.marksStale index = false := by
  rw [Bool.eq_false_iff]
  intro stale
  obtain ⟨text, there, generated⟩ := anchored.isGenerated_of_marksStale stale
  rw [Document.lineTexts, List.getElem?_map, found] at there
  cases there
  exact absurd (own.symm.trans generated) Bool.false_ne_true

theorem Regular.insertedAt_stale (regular : Regular plan doc.lines.length) (stale : plan.marksStale index = true) :
    plan.insertedAt doc.lines index = [] := by
  rw [insertedAt_eq_nil_iff]
  by_contra filled
  obtain ⟨block, planned, rfl, _⟩ := mem_of_commentsAt_ne_nil filled
  exact absurd ((regular.stays block planned).symm.trans stale) Bool.false_ne_true

/-- The first of the generated comments directly above a line. -/
def runStart (doc : Document) (line : Nat) : Nat :=
  (Comment.staleAbove doc.lineTexts line).start

theorem runStart_le {doc : Document} (inside : index ≤ doc.lines.length) : runStart doc index ≤ index := by
  have ordered := Comment.staleAbove_ordered doc.lineTexts index
  rwa [Comment.staleAbove_stop (by simpa [Document.lineTexts] using inside)] at ordered

theorem runStart_add_length {doc : Document} (inside : index ≤ doc.lines.length) :
    runStart doc index + ((doc.lines.take index).drop (runStart doc index)).length = index := by
  have start := runStart_le inside
  rw [List.length_drop, List.length_take_of_le inside]
  omega

theorem isGenerated_of_run (inside : index ≤ doc.lines.length) {place : Nat} (lower : runStart doc index ≤ place)
    (upper : place < index) (found : doc.lines[place]? = some line) : Comment.isGenerated line.text = true := by
  have stop : (Comment.staleAbove doc.lineTexts index).stop = index :=
    Comment.staleAbove_stop (by simpa [Document.lineTexts] using inside)
  obtain ⟨text, there, generated⟩ := Comment.isGenerated_of_stale
    (LineRange.contains_iff.mpr ⟨lower, show place < (Comment.staleAbove doc.lineTexts index).stop by omega⟩)
  rw [Document.lineTexts, List.getElem?_map, found] at there
  cases there
  exact generated

theorem isGenerated_of_mem_run (inside : index ≤ doc.lines.length)
    (member : line ∈ (doc.lines.take index).drop (runStart doc index)) : Comment.isGenerated line.text = true := by
  obtain ⟨place, found⟩ := List.mem_iff_getElem?.mp member
  rw [List.getElem?_drop, List.getElem?_take] at found
  split at found
  · exact isGenerated_of_run inside (Nat.le_add_right _ _) ‹_› found
  · cases found

theorem not_isGenerated_above_run {above : Nat} (start : runStart doc index = above + 1)
    (found : doc.lines[above]? = some line) : Comment.isGenerated line.text = false := by
  refine Comment.not_isGenerated_above_stale (show 0 < runStart doc index by omega) ?_
  rw [show (Comment.staleAbove doc.lineTexts index).start = above + 1 from start, Nat.add_sub_cancel,
    Document.lineTexts, List.getElem?_map, found]
  rfl

theorem Anchored.stale_of_run (anchored : Anchored plan doc) {block : Block} (planned : block ∈ plan) {place : Nat}
    (lower : runStart doc block.line ≤ place) (upper : place < block.line) : plan.marksStale place = true := by
  refine List.any_eq_true.mpr ⟨block, planned, LineRange.contains_iff.mpr ⟨?_, ?_⟩⟩
  · rw [anchored.stale block planned]
    exact lower
  · rwa [anchored.stale_stop planned]

/-- Up to a block, a document settles as it does up to the stale comments above it. -/
theorem Anchored.settled_runStart (anchored : Anchored plan doc) (regular : Regular plan doc.lines.length)
    {block : Block} (planned : block ∈ plan) :
    plan.settled doc block.line = plan.settled doc (runStart doc block.line) := by
  have inside := Nat.le_of_lt (anchored.inside block planned)
  exact settled_eq_of_stale (runStart_le inside) inside
    (fun k lower upper => anchored.stale_of_run planned lower upper)
    fun k lower upper => regular.insertedAt_stale (anchored.stale_of_run planned lower upper)

/-- The lines that settle before a run of generated comments do not end in one. -/
theorem Anchored.last_settled_runStart (anchored : Anchored plan doc) (inside : index ≤ doc.lines.length) {last : Line}
    (ends : (plan.settled doc (runStart doc index)).getLast? = some last) : Comment.isGenerated last.text = false := by
  have start := runStart_le inside
  cases first : runStart doc index with
  | zero =>
    rw [first, settled_zero] at ends
    cases ends
  | succ above =>
    have found := List.getElem?_eq_getElem (show above < doc.lines.length by omega)
    have own := not_isGenerated_above_run first found
    rw [first, settled_succ _ found, anchored.not_stale_of_not_generated found own, if_neg Bool.false_ne_true,
      List.getLast?_concat] at ends
    cases ends
    exact own

end Settled

section Moved

variable {plan : Plan} {doc : Document} {index count : Nat} {line : Line}

/-- Where a line that stays stands in the edited document. -/
def movedTo (plan : Plan) (doc : Document) (line : Nat) : Nat :=
  (plan.settled doc line).length + (plan.insertedAt doc.lines line).length

/-- Every settled line was inserted, or it is a line of the document that moved there. -/
theorem origin_of_settled (inside : count ≤ doc.lines.length) {place : Nat}
    (found : (plan.settled doc count)[place]? = some line) :
    (∃ k, line ∈ plan.insertedAt doc.lines k) ∨
      ∃ index, doc.lines[index]? = some line ∧ plan.marksStale index = false ∧ place = plan.movedTo doc index := by
  induction count with
  | zero =>
    rw [settled_zero] at found
    cases found
  | succ index ih =>
    have here := List.getElem?_eq_getElem (show index < doc.lines.length by omega)
    rw [settled_succ _ here, List.getElem?_append, List.getElem?_append] at found
    split at found
    · split at found
      · exact ih (by omega) found
      · exact .inl ⟨index, List.mem_of_getElem? found⟩
    · rename_i behind
      rw [List.length_append] at behind found
      split at found
      · cases found
      · rename_i stays
        obtain ⟨bound, same⟩ := List.getElem?_eq_some_iff.mp found
        rw [List.length_singleton] at bound
        rw [List.getElem_singleton] at same
        refine .inr ⟨index, here.trans (congrArg some same), by simpa using stays, ?_⟩
        rw [movedTo]
        omega

/-- Around a line that stays, the edited document consists of what the lines above it became, its own comments, the line
and what the lines below it become. -/
theorem settled_all_eq_append (found : doc.lines[index]? = some line) (stays : plan.marksStale index = false) :
    plan.settled doc doc.lines.length = plan.settled doc index ++ plan.insertedAt doc.lines index ++
      line :: settle (plan.insertedAt doc.lines) plan.marksStale (index + 1) (doc.lines.drop (index + 1)) := by
  rw [settled_all, settle_take_drop _ _ (index + 1), ← settled, settled_succ _ found, stays]
  simp only [Bool.false_eq_true, if_false, List.append_assoc, List.singleton_append]

/-- In the edited document, a line that stays comes behind what the lines above it became and its own comments. -/
theorem take_movedTo (found : doc.lines[index]? = some line) (stays : plan.marksStale index = false) :
    (plan.settled doc doc.lines.length).take (plan.movedTo doc index) =
        plan.settled doc index ++ plan.insertedAt doc.lines index ∧
      (plan.settled doc doc.lines.length)[plan.movedTo doc index]? = some line := by
  rw [settled_all_eq_append found stays, movedTo, ← List.length_append]
  refine ⟨List.take_left' rfl, ?_⟩
  rw [List.getElem?_append_right (Nat.le_refl _), Nat.sub_self]
  rfl

end Moved

section Endings

theorem forInsertion_of_breaks {ending : Ending} (breaks : ending.breaksLine = true) (previous : Option Ending) :
    Ending.forInsertion (some ending) previous = ending := by
  rw [Ending.forInsertion, Option.filter_some_pos breaks]

theorem forInsertion_of_open {ending previous : Ending} (opens : ending.breaksLine = false)
    (breaks : previous.breaksLine = true) : Ending.forInsertion (some ending) (some previous) = previous := by
  rw [Ending.forInsertion, Option.filter_some_neg opens, Option.filter_some_pos breaks]
  rfl

/-- Comments before a moved line end as they did: the line ends as it did, and where it does not break the line, the
comment above it does. -/
theorem endingAt_moved {lines moved : List Line} {index place : Nat} {line last : Line}
    (found : lines[index]? = some line) (there : moved[place + 1]? = some line) (above : moved[place]? = some last)
    (ends : last.ending = Document.endingAt lines index) :
    Document.endingAt moved (place + 1) = Document.endingAt lines index := by
  have breaks : last.ending.breaksLine = true := by
    rw [ends]
    exact Ending.forInsertion_breaksLine _ _
  rw [Document.endingAt, there, Document.endingAbove?, above]
  cases own : line.ending.breaksLine with
  | true => rw [Document.endingAt, found, Option.map_some, forInsertion_of_breaks own, forInsertion_of_breaks own]
  | false => rw [Option.map_some, Option.map_some, forInsertion_of_open own breaks, ends]

end Endings

section Result

variable {plan : Plan} {doc : Document}

def result (plan : Plan) (doc : Document) : Document :=
  { doc with text := plan.apply doc }

theorem lines_result (anchored : Anchored plan doc) (regular : Regular plan doc.lines.length)
    (recognised : Recognised plan) : (plan.result doc).lines = plan.settled doc doc.lines.length := by
  rw [Document.lines, result, regular.apply_eq_render]
  exact Line.read_render (settled_canonical anchored recognised)

theorem staleAbove_of_lines {front run : List Line} {place : Nat} (shape : doc.lines.take place = front ++ run)
    (generated : ∀ line ∈ run, Comment.isGenerated line.text = true)
    (stops : ∀ last, front.getLast? = some last → Comment.isGenerated last.text = false) :
    Comment.staleAbove doc.lineTexts place = { start := front.length, stop := front.length + run.length } := by
  have texts : doc.lineTexts.take place = front.map (·.text) ++ run.map (·.text) := by
    rw [Document.lineTexts, ← List.map_take, shape, List.map_append]
  rw [Comment.staleAbove_of_split texts (List.forall_mem_map.mpr generated), List.length_map, List.length_map]
  intro text last
  rw [List.getLast?_map] at last
  obtain ⟨line, ends, rfl⟩ := Option.map_eq_some_iff.mp last
  exact stops line ends

theorem drop_runStart {front run : List Line} {place : Nat} (shape : doc.lines.take place = front ++ run)
    (generated : ∀ line ∈ run, Comment.isGenerated line.text = true)
    (stops : ∀ last, front.getLast? = some last → Comment.isGenerated last.text = false) :
    (doc.lines.take place).drop (runStart doc place) = run := by
  rw [runStart, staleAbove_of_lines shape generated stops, shape, List.drop_left]

section Written

variable (anchored : Anchored plan doc) (regular : Regular plan doc.lines.length) (recognised : Recognised plan)
  {block : Block} (planned : block ∈ plan)

include anchored regular recognised planned

/-- A moved block stands behind what the lines above it became and behind its comments. -/
theorem result_movedTo :
    (plan.result doc).lines.take (plan.movedTo doc block.line) =
        plan.settled doc block.line ++ plan.insertedAt doc.lines block.line ∧
      (plan.result doc).lines[plan.movedTo doc block.line]? = doc.lines[block.line]? := by
  have found := List.getElem?_eq_getElem (anchored.inside block planned)
  rw [lines_result anchored regular recognised, found]
  exact take_movedTo found (regular.stays block planned)

/-- The stale comments above a moved block are the lines that were inserted there. -/
theorem staleAbove_movedTo :
    Comment.staleAbove (plan.result doc).lineTexts (plan.movedTo doc block.line) =
      { start := (plan.settled doc block.line).length, stop := plan.movedTo doc block.line } := by
  have above := (result_movedTo anchored regular recognised planned).1
  rw [staleAbove_of_lines above fun line member => (recognised.inserted_spec member).1, movedTo]
  intro last ends
  rw [anchored.settled_runStart regular planned] at ends
  exact anchored.last_settled_runStart (Nat.le_of_lt (anchored.inside block planned)) ends

/-- The generated comments above a moved block are those that were written there. -/
theorem run_movedTo :
    ((plan.result doc).lines.take (plan.movedTo doc block.line)).drop
        (runStart (plan.result doc) (plan.movedTo doc block.line)) = plan.insertedAt doc.lines block.line := by
  rw [runStart, staleAbove_movedTo anchored regular recognised planned,
    (result_movedTo anchored regular recognised planned).1, List.drop_left]

/-- Comments before a moved block end as they did before it moved. -/
theorem endingAt_movedTo (filled : plan.commentsAt block.line ≠ []) :
    Document.endingAt (plan.result doc).lines (plan.movedTo doc block.line) =
      Document.endingAt doc.lines block.line := by
  obtain ⟨above, there⟩ := result_movedTo anchored regular recognised planned
  have found := List.getElem?_eq_getElem (anchored.inside block planned)
  rw [found] at there
  obtain ⟨before, last, shape⟩ :=
    (List.eq_nil_or_concat' (plan.insertedAt doc.lines block.line)).resolve_left (mt insertedAt_eq_nil_iff.mp filled)
  have member : last ∈ plan.insertedAt doc.lines block.line := by
    rw [shape]
    exact List.mem_append_right _ List.mem_cons_self
  have ends : last.ending = Document.endingAt doc.lines block.line := ending_of_mem_insertedAt member
  have moved : plan.movedTo doc block.line = (plan.settled doc block.line ++ before).length + 1 := by
    rw [movedTo, shape]
    simp only [List.length_append, List.length_singleton]
    omega
  have lastThere : (plan.result doc).lines[(plan.settled doc block.line ++ before).length]? = some last := by
    have taken := congrArg (fun lines : List Line => lines[(plan.settled doc block.line ++ before).length]?) above
    rw [moved] at taken
    simp only [List.getElem?_take_of_lt (Nat.lt_succ_self _)] at taken
    rw [taken, shape, ← List.append_assoc, List.getElem?_concat_length]
  rw [moved] at there ⊢
  exact endingAt_moved found there lastThere ends

end Written

end Result

end Plan

end RouteComments
