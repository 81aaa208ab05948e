import RouteComments.Proofs.PlanOperations
import RouteComments.Proofs.SourceLines

set_option autoImplicit false

namespace RouteComments

open Text

namespace Comment

/-- The stale lines above a line are the longest run of generated comments that ends there. -/
theorem staleAbove_split (lines : List Text) (line : Nat) :
    ∃ front run, lines.take line = front ++ run ∧ (∀ text ∈ run, isGenerated text = true) ∧
      (∀ last, front.getLast? = some last → isGenerated last = false) ∧
      staleAbove lines line = { start := front.length, stop := front.length + run.length } := by
  refine ⟨((lines.take line).reverse.dropWhile isGenerated).reverse,
    ((lines.take line).reverse.takeWhile isGenerated).reverse, ?_, ?_, ?_, ?_⟩
  · rw [← List.reverse_append, List.takeWhile_append_dropWhile, List.reverse_reverse]
  · intro text member
    exact List.mem_takeWhile_imp (List.mem_reverse.mp member)
  · intro last found
    rw [List.getLast?_reverse] at found
    have head := List.head?_dropWhile_not isGenerated (lines.take line).reverse
    rw [found] at head
    simpa using head
  · have whole : ((lines.take line).reverse.takeWhile isGenerated).length +
        ((lines.take line).reverse.dropWhile isGenerated).length = (lines.take line).length := by
      rw [← List.length_append, List.takeWhile_append_dropWhile, List.length_reverse]
    simp only [staleAbove, List.length_reverse]
    congr 1 <;> omega

/-- A run of generated comments with none above it is the stale run. -/
theorem staleAbove_of_split {lines front run : List Text} {line : Nat} (shape : lines.take line = front ++ run)
    (generated : ∀ text ∈ run, isGenerated text = true)
    (stops : ∀ last, front.getLast? = some last → isGenerated last = false) :
    staleAbove lines line = { start := front.length, stop := front.length + run.length } := by
  have taken : (lines.take line).reverse.takeWhile isGenerated = run.reverse := by
    rw [shape, List.reverse_append, List.takeWhile_append_of_pos fun text member =>
      generated text (List.mem_reverse.mp member)]
    cases last : front.getLast? with
    | none =>
      rw [List.getLast?_eq_none_iff.mp last, List.reverse_nil, List.takeWhile_nil, List.append_nil]
    | some text =>
      obtain ⟨before, rfl⟩ := List.getLast?_eq_some_iff.mp last
      rw [List.reverse_append, List.reverse_singleton, List.singleton_append,
        List.takeWhile_cons_of_neg (by rw [stops text last]; decide), List.append_nil]
  rw [staleAbove, taken, shape, List.length_reverse, List.length_append, Nat.add_sub_cancel]

theorem staleAbove_stop {lines : List Text} {line : Nat} (inside : line ≤ lines.length) :
    (staleAbove lines line).stop = line := by
  simp only [staleAbove, List.length_take]
  omega

theorem staleAbove_ordered (lines : List Text) (line : Nat) :
    (staleAbove lines line).start ≤ (staleAbove lines line).stop := by
  simp only [staleAbove]
  omega

/-- Every stale line is a generated comment. -/
theorem isGenerated_of_stale {lines : List Text} {line place : Nat}
    (inside : (staleAbove lines line).contains place = true) :
    ∃ text, lines[place]? = some text ∧ isGenerated text = true := by
  obtain ⟨front, run, shape, generated, _, range⟩ := staleAbove_split lines line
  rw [range] at inside
  simp only [LineRange.contains, Bool.and_eq_true, decide_eq_true_eq] at inside
  have bound : place - front.length < run.length := by omega
  refine ⟨run[place - front.length], ?_, generated _ (List.getElem_mem bound)⟩
  have taken : (lines.take line)[place]? = some run[place - front.length] := by
    rw [shape, List.getElem?_append_right inside.1, List.getElem?_eq_getElem bound]
  rw [List.getElem?_take] at taken
  split at taken
  · exact taken
  · cases taken

/-- The line above the stale lines is no generated comment. -/
theorem not_isGenerated_above_stale {lines : List Text} {line : Nat} {text : Text}
    (above : 0 < (staleAbove lines line).start)
    (found : lines[(staleAbove lines line).start - 1]? = some text) : isGenerated text = false := by
  obtain ⟨front, run, shape, _, stops, range⟩ := staleAbove_split lines line
  rw [range] at above found
  apply stops
  have taken : (lines.take line)[front.length - 1]? = front[front.length - 1]? := by
    rw [shape, List.getElem?_append_left (by simp only at above; omega)]
  have length : front.length + run.length ≤ line := by
    rw [← List.length_append, ← shape, List.length_take]
    exact Nat.min_le_left _ _
  rw [List.getLast?_eq_getElem?, ← taken, List.getElem?_take, if_pos (by simp only at above; omega)]
  exact found

end Comment

namespace Mapping

theorem verbs_ne_nil (occurrence : Occurrence) : occurrence.verbs ≠ [] := by
  cases kind : occurrence.kind with
  | generic =>
    simp only [Occurrence.verbs, kind, resolveVerbs, referencedVerbs]
    split
    · exact List.cons_ne_nil _ _
    · assumption
  | _ => simp only [Occurrence.verbs, kind, resolveVerbs]; exact List.cons_ne_nil _ _

end Mapping

namespace Plan

/-- A planned block belongs to a mapping of a method and was made at its line. -/
theorem mem_ofDocument {doc : Document} {baseUrl : Text} {block : Block} :
    block ∈ ofDocument doc baseUrl ↔ ∃ occurrence ∈ Mapping.methodMappings doc.text,
      blockAt doc.lineTexts (doc.lineOfOffset occurrence.offset) baseUrl (Mapping.classBasePath doc.text)
        occurrence = block := by
  simp only [ofDocument, List.mem_map]

theorem line_eq {doc : Document} {baseUrl : Text} {block : Block} (planned : block ∈ ofDocument doc baseUrl) :
    ∃ occurrence ∈ Mapping.methodMappings doc.text, block.line = doc.lineOfOffset occurrence.offset := by
  obtain ⟨occurrence, member, rfl⟩ := mem_ofDocument.mp planned
  exact ⟨occurrence, member, rfl⟩

theorem comments_ne_nil {doc : Document} {baseUrl : Text} {block : Block} (planned : block ∈ ofDocument doc baseUrl) :
    block.comments ≠ [] := by
  obtain ⟨occurrence, _, rfl⟩ := mem_ofDocument.mp planned
  have verbs := Mapping.verbs_ne_nil occurrence
  have paths := Mapping.extractPaths_ne_nil occurrence.args
  simp only [Block.comments, blockAt, resolveEndpoints, ne_eq, List.map_eq_nil_iff, List.flatMap_eq_nil_iff]
  intro none
  obtain ⟨verb, member⟩ := List.exists_mem_of_ne_nil _ verbs
  exact paths (none verb member)

theorem line_lt {doc : Document} {baseUrl : Text} {block : Block} (planned : block ∈ ofDocument doc baseUrl) :
    block.line < doc.lines.length := by
  obtain ⟨occurrence, _, rfl⟩ := mem_ofDocument.mp planned
  exact doc.lineOfOffset_lt occurrence.offset

theorem stale_eq {doc : Document} {baseUrl : Text} {block : Block} (planned : block ∈ ofDocument doc baseUrl) :
    block.stale = Comment.staleAbove doc.lineTexts block.line := by
  obtain ⟨occurrence, _, rfl⟩ := mem_ofDocument.mp planned
  rfl

/-- Blocks that stand on lines of a document and take the generated comments directly above for stale. -/
structure Anchored (plan : Plan) (doc : Document) : Prop where
  inside : ∀ block ∈ plan, block.line < doc.lines.length
  stale : ∀ block ∈ plan, block.stale = Comment.staleAbove doc.lineTexts block.line

section Anchored

variable {plan : Plan} {doc : Document}

theorem Anchored.stale_stop (anchored : Anchored plan doc) {block : Block} (member : block ∈ plan) :
    block.stale.stop = block.line := by
  have inside := anchored.inside block member
  rw [anchored.stale block member]
  apply Comment.staleAbove_stop
  simp only [Document.lineTexts, List.length_map]
  omega

/-- A line that a plan marks as stale is a generated comment. -/
theorem Anchored.isGenerated_of_marksStale (anchored : Anchored plan doc) {line : Nat}
    (stale : plan.marksStale line = true) :
    ∃ text, doc.lineTexts[line]? = some text ∧ Comment.isGenerated text = true := by
  obtain ⟨block, member, inside⟩ := List.any_eq_true.mp stale
  rw [anchored.stale block member] at inside
  exact Comment.isGenerated_of_stale inside

/-- A plan is regular when no block stands on a line that is a generated comment. -/
theorem Anchored.regular (anchored : Anchored plan doc)
    (plain : ∀ block ∈ plan, ∀ text ∈ doc.lineText? block.line, Comment.isGenerated text = false) :
    Regular plan doc.lines.length where
  inside := anchored.inside
  stays block member := by
    rw [Bool.eq_false_iff]
    intro stale
    obtain ⟨text, found, generated⟩ := anchored.isGenerated_of_marksStale stale
    rw [Document.lineTexts, List.getElem?_map] at found
    exact absurd (generated.symm.trans (plain block member text found)) (by decide)

/-- Stale lines stand above a block, so the last line is none of them. -/
theorem Anchored.last_not_stale (anchored : Anchored plan doc) : plan.marksStale (doc.lines.length - 1) = false := by
  simp only [marksStale, List.any_eq_false, Bool.not_eq_true]
  intro block member
  have stop := anchored.stale_stop member
  have bound := anchored.inside block member
  simp only [LineRange.contains, Bool.and_eq_false_iff, decide_eq_false_iff_not]
  omega

end Anchored

theorem anchored_ofDocument (doc : Document) (baseUrl : Text) : Anchored (ofDocument doc baseUrl) doc where
  inside _ planned := line_lt planned
  stale _ planned := stale_eq planned

theorem stale_stop {doc : Document} {baseUrl : Text} {block : Block} (planned : block ∈ ofDocument doc baseUrl) :
    block.stale.stop = block.line :=
  (anchored_ofDocument doc baseUrl).stale_stop planned

theorem commentsAt_line_ne_nil {doc : Document} {baseUrl : Text} {block : Block}
    (planned : block ∈ ofDocument doc baseUrl) : (ofDocument doc baseUrl).commentsAt block.line ≠ [] := by
  obtain ⟨comment, member⟩ := List.exists_mem_of_ne_nil _ (comments_ne_nil planned)
  exact List.ne_nil_of_mem (mem_commentsAt.mpr ⟨block, planned, rfl, member⟩)

/-- The plan of a document is regular when no mapping stands on a line that is a generated comment. -/
theorem regular_of_not_generated {doc : Document} {baseUrl : Text}
    (plain : ∀ block ∈ ofDocument doc baseUrl, ∀ text ∈ doc.lineText? block.line, Comment.isGenerated text = false) :
    Regular (ofDocument doc baseUrl) doc.lines.length :=
  (anchored_ofDocument doc baseUrl).regular plain

end Plan

end RouteComments
