import RouteComments.Proofs.DeletionSafety

set_option autoImplicit false

namespace RouteComments

open Text

namespace Operation

namespace Traced

/-- Every insertion, when its turn comes, finds the line that it was numbered for in its place, and the lines that it
adds stand directly before that line when all operations are applied. -/
def Lands (source : List Line) (operations : List Operation) : Prop :=
  ∀ done line text later, operations = done ++ .insert line text :: later →
    (done.foldl apply (ofSource source)).origins[line]? = some (some line) ∧
      ∃ front ending kept back, operations.foldl apply (ofSource source) =
        front ++ ofText text ending ++ (some line, kept) :: back

/-- An operation leaves the lines above it where they are. -/
theorem take_origins_apply {source : List Line} {traced : Traced} {operation : Operation} {count : Nat}
    (fits : Fits source operation) (above : count ≤ operation.first) (inside : count ≤ traced.length) :
    (apply traced operation).origins.take count = traced.origins.take count := by
  have sameLength : traced.origins.length = traced.length := List.length_map _
  cases operation with
  | delete range =>
    simp only [Fits] at fits
    simp only [first] at above
    simp only [apply, origins, List.map_append, List.map_take]
    rw [List.take_append_of_le_length, List.take_take, Nat.min_eq_left]
    · omega
    · rw [List.length_take, List.length_map]
      omega
  | insert line text =>
    simp only [first] at above
    rw [origins_insert, List.append_assoc, List.take_append_of_le_length, List.take_take, Nat.min_eq_left above]
    rw [List.length_take]
    omega

/-- Operations leave the lines above all of them where they are. -/
theorem take_origins_foldl {source : List Line} {traced : Traced} {operations : List Operation} {count : Nat}
    (fits : ∀ operation ∈ operations, Fits source operation)
    (above : ∀ operation ∈ operations, count ≤ operation.first) (inside : count ≤ traced.length) :
    (operations.foldl apply traced).origins.take count = traced.origins.take count := by
  induction operations generalizing traced with
  | nil => rfl
  | cons operation rest ih =>
    obtain ⟨fitsHere, fitsRest⟩ := List.forall_mem_cons.mp fits
    obtain ⟨aboveHere, aboveRest⟩ := List.forall_mem_cons.mp above
    have step := take_origins_apply fitsHere aboveHere inside
    have insideNext : count ≤ (apply traced operation).length := by
      have lengths := congrArg List.length step
      simp only [origins, List.length_take, List.length_map] at lengths
      omega
    rw [List.foldl_cons, ih fitsRest aboveRest insideNext, step]

/-- An operation on the front of a buffer leaves its back, and of the front the lines above. -/
theorem apply_append {source : List Line} {front : Traced} {operation : Operation} (fits : Fits source operation)
    (above : operation.past ≤ front.length) (back : Traced) :
    apply (front ++ back) operation = apply front operation ++ back ∧
      operation.first ≤ (apply front operation).length := by
  cases operation with
  | delete range =>
    simp only [Fits] at fits
    simp only [past] at above
    have bound : range.stop ≤ (front ++ back).length := by
      rw [List.length_append]
      omega
    simp only [apply, first, Nat.min_eq_left above, Nat.min_eq_left bound, Nat.min_eq_left fits]
    rw [List.take_append_of_le_length (by omega), List.drop_append_of_le_length above, List.append_assoc]
    refine ⟨rfl, ?_⟩
    rw [List.length_append, List.length_take]
    omega
  | insert line text =>
    simp only [past] at above
    have bound : line < (front ++ back).length := by
      rw [List.length_append]
      omega
    have ending : Document.endingAt (front ++ back).buffer line = Document.endingAt front.buffer line := by
      rw [buffer_append]
      apply endingAt_append
      rw [buffer, List.length_map]
      exact above
    simp only [apply, first, Nat.min_eq_left (Nat.le_of_lt bound), Nat.min_eq_left (Nat.le_of_lt above),
      if_neg (Nat.ne_of_lt bound), if_neg (Nat.ne_of_lt above), ending]
    rw [List.take_append_of_le_length (by omega), List.drop_append_of_le_length (by omega)]
    refine ⟨by simp only [List.append_assoc], ?_⟩
    rw [List.length_append, List.length_append, List.length_take]
    omega

/-- Descending operations on the front of a buffer leave its back. -/
theorem foldl_apply_append {source : List Line} {front : Traced} {operations : List Operation}
    (fits : ∀ operation ∈ operations, Fits source operation) (descending : Descending operations)
    (above : ∀ operation ∈ operations, operation.past ≤ front.length) (back : Traced) :
    operations.foldl apply (front ++ back) = operations.foldl apply front ++ back := by
  induction operations generalizing front with
  | nil => rfl
  | cons operation rest ih =>
    obtain ⟨fitsHere, fitsRest⟩ := List.forall_mem_cons.mp fits
    obtain ⟨lower, descendingRest⟩ := List.pairwise_cons.mp descending
    obtain ⟨step, left⟩ := apply_append fitsHere (above operation List.mem_cons_self) back
    rw [List.foldl_cons, List.foldl_cons, step]
    exact ih fitsRest descendingRest fun later member => Nat.le_trans (lower later member) left

/-- An insertion before a line that is in its place cuts the buffer there. -/
theorem apply_insert_of_found {traced : Traced} {line : Nat} (found : traced.origins[line]? = some (some line))
    (text : Text) :
    (traced.take line).length = line ∧ ∃ kept back, apply traced (.insert line text) =
      traced.take line ++ (ofText text (Document.endingAt traced.buffer line) ++ (some line, kept) :: back) := by
  rw [origins, List.getElem?_map] at found
  obtain ⟨⟨origin, kept⟩, there, named⟩ := Option.map_eq_some_iff.mp found
  obtain rfl : origin = some line := named
  obtain ⟨bound, same⟩ := List.getElem?_eq_some_iff.mp there
  have split : traced.drop line = (some line, kept) :: traced.drop (line + 1) := by
    rw [List.drop_eq_getElem_cons bound, same]
  refine ⟨List.length_take_of_le (Nat.le_of_lt bound), kept, traced.drop (line + 1), ?_⟩
  simp only [apply, Nat.min_eq_left (Nat.le_of_lt bound), if_neg (Nat.ne_of_lt bound), split, List.append_assoc]

/-- Descending operations that fit the source land: the ones before an insertion stay below its line, the ones behind it
stay above. -/
theorem lands_of_descending {source : List Line} {operations : List Operation} (descending : Descending operations)
    (fits : ∀ operation ∈ operations, Fits source operation) : Lands source operations := by
  rintro done line text later rfl
  obtain ⟨-, descendingFrom, doneBelow⟩ := List.pairwise_append.mp descending
  obtain ⟨laterAbove, descendingLater⟩ := List.pairwise_cons.mp descendingFrom
  obtain ⟨fitsDone, fitsFrom⟩ := List.forall_mem_append.mp fits
  obtain ⟨inside, fitsLater⟩ := List.forall_mem_cons.mp fitsFrom
  have start : line + 1 ≤ (ofSource source).length := by
    rw [ofSource, List.length_map, List.length_zipIdx]
    exact inside
  have here : (done.foldl apply (ofSource source)).origins[line]? = some (some line) := by
    have shared : (done.foldl apply (ofSource source)).origins.take (line + 1) =
        (ofSource source).origins.take (line + 1) :=
      take_origins_foldl fitsDone
        (fun operation member => doneBelow operation member (.insert line text) List.mem_cons_self) start
    have found := congrArg (·[line]?) shared
    simpa only [List.getElem?_take, if_pos (Nat.lt_succ_self line), origins_ofSource, List.getElem?_map,
      List.getElem?_range inside, Option.map_some] using found
  obtain ⟨length, kept, back, applied⟩ := apply_insert_of_found here text
  refine ⟨here, later.foldl apply ((done.foldl apply (ofSource source)).take line),
    Document.endingAt (done.foldl apply (ofSource source)).buffer line, kept, back, ?_⟩
  rw [List.foldl_append, List.foldl_cons, applied, foldl_apply_append fitsLater descendingLater ?_,
    List.append_assoc]
  rw [length]
  exact laterAbove

end Traced

end Operation

namespace Comment

/-- The stale lines above a line are those from which generated comments run on to it. -/
theorem staleAbove_contains_iff {lines : List Text} {line place : Nat} (inside : line ≤ lines.length) :
    (staleAbove lines line).contains place = true ↔
      place < line ∧ ∀ other, place ≤ other → other < line →
        ∃ text, lines[other]? = some text ∧ isGenerated text = true := by
  have stop := staleAbove_stop inside
  constructor
  · intro stale
    have bounds := LineRange.contains_iff.mp stale
    refine ⟨by omega, fun other lower upper => ?_⟩
    have otherStale : (staleAbove lines line).contains other = true :=
      LineRange.contains_iff.mpr ⟨by omega, by omega⟩
    exact isGenerated_of_stale otherStale
  · rintro ⟨before, generated⟩
    refine LineRange.contains_iff.mpr ⟨?_, by omega⟩
    by_contra above
    have ordered := staleAbove_ordered lines line
    obtain ⟨text, found, isComment⟩ := generated ((staleAbove lines line).start - 1) (by omega) (by omega)
    rw [not_isGenerated_above_stale (by omega) found] at isComment
    cases isComment

end Comment

namespace Plan

open Operation Operation.Traced

/-- No mapping stands on a generated comment from which generated comments run on to the line of another mapping. -/
def MappingsApart (doc : Document) : Prop :=
  ∀ upper ∈ Mapping.methodMappings doc.text, ∀ lower ∈ Mapping.methodMappings doc.text,
    doc.lineOfOffset upper.offset < doc.lineOfOffset lower.offset →
      ∃ place text, doc.lineOfOffset upper.offset ≤ place ∧ place < doc.lineOfOffset lower.offset ∧
        doc.lineText? place = some text ∧ Comment.isGenerated text = false

variable {doc : Document} {baseUrl : Text}

/-- A block takes the line of another for stale exactly if generated comments run from there to its own line. -/
theorem stale_contains_iff {block : Block} (planned : block ∈ ofDocument doc baseUrl) (place : Nat) :
    block.stale.contains place = true ↔ place < block.line ∧ ∀ other, place ≤ other → other < block.line →
      ∃ text, doc.lineText? other = some text ∧ Comment.isGenerated text = true := by
  have inside : block.line ≤ doc.lineTexts.length := by
    rw [Document.lineTexts, List.length_map]
    exact Nat.le_of_lt (line_lt planned)
  rw [stale_eq planned, Comment.staleAbove_contains_iff inside]
  simp only [Document.lineTexts, List.getElem?_map, Document.lineText?]

/-- No block stands on a line that a block takes for stale exactly if the mappings are apart. -/
theorem lines_stay_iff (doc : Document) (baseUrl : Text) :
    (∀ block ∈ ofDocument doc baseUrl, ∀ other ∈ ofDocument doc baseUrl, other.stale.contains block.line = false) ↔
      MappingsApart doc := by
  constructor
  · intro stays upper upperFound lower lowerFound before
    have kept := stays _ (mem_ofDocument.mpr ⟨upper, upperFound, rfl⟩) _ (mem_ofDocument.mpr ⟨lower, lowerFound, rfl⟩)
    by_contra none
    rw [Bool.eq_false_iff] at kept
    refine kept ((stale_contains_iff (mem_ofDocument.mpr ⟨lower, lowerFound, rfl⟩) _).mpr ⟨before, ?_⟩)
    intro place above below
    have bound : place < doc.lines.length := Nat.lt_trans below (doc.lineOfOffset_lt lower.offset)
    have found : doc.lineText? place = some doc.lines[place].text := by
      rw [Document.lineText?, List.getElem?_eq_getElem bound, Option.map_some]
    refine ⟨_, found, ?_⟩
    by_contra plain
    exact none ⟨place, _, above, below, found, Bool.eq_false_iff.mpr plain⟩
  · intro apart block planned other otherPlanned
    obtain ⟨upper, upperFound, upperLine⟩ := line_eq planned
    obtain ⟨lower, lowerFound, lowerLine⟩ := line_eq otherPlanned
    rw [Bool.eq_false_iff]
    intro stale
    obtain ⟨before, generated⟩ := (stale_contains_iff otherPlanned block.line).mp stale
    obtain ⟨place, text, above, below, found, plain⟩ := apart upper upperFound lower lowerFound (by omega)
    obtain ⟨same, foundToo, isComment⟩ := generated place (by omega) (by omega)
    cases found.symm.trans foundToo
    rw [plain] at isComment
    cases isComment

/-- A block whose insertion lands stands on a line that stays. -/
theorem marksStale_of_lands (lands : Lands doc.lines (ofDocument doc baseUrl).orderedOperations) {block : Block}
    (planned : block ∈ ofDocument doc baseUrl) : (ofDocument doc baseUrl).marksStale block.line = false := by
  have inserted : .insert block.line (joinWith ['\n'] ((ofDocument doc baseUrl).commentsAt block.line)) ∈
      (ofDocument doc baseUrl).orderedOperations :=
    (order_perm _).mem_iff.mpr (mem_operations.mpr (.inr ⟨block.line, commentsAt_line_ne_nil planned, rfl⟩))
  obtain ⟨done, later, split⟩ := List.append_of_mem inserted
  obtain ⟨-, front, ending, kept, back, final⟩ := lands done block.line _ later split
  have survives : block.line ∈ (List.range doc.lines.length).filter (!(ofDocument doc baseUrl).marksStale ·) := by
    rw [← (planned_run doc baseUrl).2.1, final, List.mem_filterMap]
    exact ⟨(some block.line, kept), List.mem_append_right _ List.mem_cons_self, rfl⟩
  simpa using (List.mem_filter.mp survives).2

theorem lands_iff (doc : Document) (baseUrl : Text) :
    Lands doc.lines (ofDocument doc baseUrl).orderedOperations ↔ MappingsApart doc := by
  rw [← lines_stay_iff doc baseUrl]
  constructor
  · exact fun lands block planned => marksStale_eq_false_iff.mp (marksStale_of_lands lands planned)
  · intro stays
    have regular : Regular (ofDocument doc baseUrl) doc.lines.length :=
      ⟨fun _ planned => line_lt planned, fun block planned => marksStale_eq_false_iff.mpr (stays block planned)⟩
    exact lands_of_descending regular.descending regular.fits

/-- No mapping stands on a line that is taken for stale, and every insertion lands, in its turn and in the end, directly
before the line that it was numbered for, exactly if no mapping stands on a generated comment from which generated
comments run on to another mapping. -/
theorem insertions_land_iff (doc : Document) (baseUrl : Text) :
    ((∀ block ∈ ofDocument doc baseUrl, ∀ other ∈ ofDocument doc baseUrl,
        other.stale.contains block.line = false) ↔ MappingsApart doc) ∧
      (∀ operations : List Operation,
        (operations.foldl Traced.apply (ofSource doc.lines)).buffer = applyAll operations doc.lines) ∧
      (Lands doc.lines (ofDocument doc baseUrl).orderedOperations ↔ MappingsApart doc) := by
  refine ⟨lines_stay_iff doc baseUrl, fun operations => ?_, lands_iff doc baseUrl⟩
  rw [buffer_applyAll, buffer_ofSource]

/-- A mapping in a generated comment, directly above another mapping. -/
def commentedMapping : Document where
  path := Path.ofText "A.java".toList
  text := joinWith ['\n'] ["class A \x7b".toList, "// GET @PostMapping(\"/x\")".toList,
    "@GetMapping(\"/y\")".toList, "public void f() \x7b\x7d".toList, "\x7d".toList, []]

/-- The commented mapping stands on a line that is deleted, and yet a comment is inserted for it. -/
theorem commentedMapping_does_not_land :
    (∃ block ∈ ofDocument commentedMapping "http://h".toList, ∃ other ∈ ofDocument commentedMapping "http://h".toList,
        other.stale.contains block.line = true) ∧
      ¬ Lands commentedMapping.lines (ofDocument commentedMapping "http://h".toList).orderedOperations := by
  refine ⟨by decide +kernel, fun lands => ?_⟩
  have kept : ∀ block ∈ ofDocument commentedMapping "http://h".toList,
      (ofDocument commentedMapping "http://h".toList).marksStale block.line = false :=
    fun block planned => marksStale_of_lands lands planned
  exact absurd kept (by decide +kernel)

end Plan

end RouteComments
