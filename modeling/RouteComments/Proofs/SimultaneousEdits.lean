import RouteComments.Proofs.PlanOperations

set_option autoImplicit false

namespace RouteComments

open Text

namespace Plan

open Operation

/-- What a walk writes before a line: the comments of all blocks there, in order of the blocks, with the ending that
suits the document there. -/
def writtenBefore (plan : Plan) (doc : Document) (line : Nat) : Text :=
  (plan.filter (·.line = line)).flatMap fun block =>
    block.comments.flatMap fun comment =>
      (pieces '\n' comment).flatMap fun piece => piece ++ (doc.endingBefore line).text

/-- What a walk writes for a line itself: nothing if it is stale, else the line with its own ending. -/
def writtenAt (plan : Plan) (doc : Document) (line : Nat) : Text :=
  if plan.any (·.stale.contains line) then []
  else doc.lines[line]?.elim [] fun found => found.text ++ found.ending.text

/-- The text that a walk over the lines of a document writes. -/
def walked (plan : Plan) (doc : Document) : Text :=
  (List.range doc.lines.length).flatMap fun line => plan.writtenBefore doc line ++ plan.writtenAt doc line

theorem render_map_ending (texts : List Text) (ending : Ending) :
    Line.render (texts.map fun text => { text, ending }) = texts.flatMap fun text => text ++ ending.text := by
  induction texts with
  | nil => rfl
  | cons text rest ih => rw [List.map_cons, Line.render_cons, ih, List.flatMap_cons]

theorem commentsAt_eq_filter (plan : Plan) (line : Nat) :
    plan.commentsAt line = (plan.filter (·.line = line)).flatMap Block.comments := by
  induction plan with
  | nil => rfl
  | cons block rest ih =>
    have here : commentsAt (block :: rest) line =
        (if block.line = line then block.comments else []) ++ commentsAt rest line := rfl
    rw [here, ih]
    by_cases same : block.line = line
    · rw [if_pos same, List.filter_cons_of_pos (by simpa using same), List.flatMap_cons]
    · rw [if_neg same, List.filter_cons_of_neg (by simpa using same), List.nil_append]

theorem render_insertedAt (plan : Plan) (doc : Document) (line : Nat) :
    Line.render (plan.insertedAt doc.lines line) = plan.writtenBefore doc line := by
  rw [insertedAt, render_map_ending, commentsAt_eq_filter, List.flatMap_assoc, List.flatMap_assoc]
  rfl

/-- The text of settled lines, line by line from the first one on. -/
theorem render_settle (inserted : Nat → List Line) (removed : Nat → Bool) (index : Nat) (lines : List Line) :
    Line.render (settle inserted removed index lines) =
      (List.range lines.length).flatMap fun k => Line.render (inserted (index + k)) ++
        if removed (index + k) then [] else lines[k]?.elim [] fun found => found.text ++ found.ending.text := by
  induction lines generalizing index with
  | nil => rfl
  | cons line rest ih =>
    have shifted : ∀ k, index + 1 + k = index + (k + 1) := by omega
    have kept : Line.render (if removed index then [] else [line]) =
        if removed index then [] else line.text ++ line.ending.text := by
      split
      · rfl
      · rw [Line.render_cons, Line.render_nil, List.append_nil]
    rw [settle, Line.render_append, Line.render_append, ih, kept, List.length_cons, List.range_succ_eq_map,
      List.flatMap_cons, List.flatMap_map]
    simp only [shifted, Nat.add_zero, List.getElem?_cons_zero, List.getElem?_cons_succ, Option.elim_some]

/-- Applied from the bottom up, a plan makes the text that one walk over the document writes, whatever the order of its
blocks and the extent of its stale ranges: all that is asked is that each block stands before a line that stays. -/
theorem apply_eq_walked (plan : Plan) (doc : Document) (inside : ∀ block ∈ plan, block.line < doc.lines.length)
    (stays : ∀ block ∈ plan, ∀ other ∈ plan, other.stale.contains block.line = false) :
    plan.apply doc = plan.walked doc := by
  have regular : Regular plan doc.lines.length := by
    refine ⟨inside, fun block member => ?_⟩
    rw [marksStale, List.any_eq_false]
    intro other otherMember
    rw [stays block member other otherMember]
    exact Bool.false_ne_true
  rw [apply, Document.edited, regular.applyAll_eq_settle, render_settle, walked]
  refine List.flatMap_congr fun line _ => ?_
  rw [Nat.zero_add, render_insertedAt, marksStale, writtenAt]

/-- Four lines with different endings, of which the last is not terminated. -/
def mixedEndings : Document where
  path := Path.ofText "A.java".toList
  text := "a\r\n// GET x\nb\nc".toList

/-- Blocks out of order, two of them at the last line and with the same stale comment, one with a range that starts
behind the document, and one with a URL that runs over two lines. -/
def scatteredBlocks : Plan :=
  [{ occurrence := { kind := .get, args := [], offset := 0 }, line := 3, indent := " ".toList
     endpoints := [{ verb := "GET".toList, url := "u".toList }, { verb := "PUT".toList, url := "v\nw".toList }]
     stale := { start := 1, stop := 2 } },
   { occurrence := { kind := .get, args := [], offset := 0 }, line := 0, indent := []
     endpoints := [{ verb := "POST".toList, url := [] }], stale := { start := 4, stop := 9 } },
   { occurrence := { kind := .get, args := [], offset := 0 }, line := 3, indent := []
     endpoints := [{ verb := "DELETE".toList, url := "z".toList }], stale := { start := 1, stop := 3 } },
   { occurrence := { kind := .get, args := [], offset := 0 }, line := 3, indent := [], endpoints := []
     stale := { start := 1, stop := 2 } }]

theorem scatteredBlocks_apply :
    (∀ block ∈ scatteredBlocks, block.line < mixedEndings.lines.length) ∧
      (∀ block ∈ scatteredBlocks, ∀ other ∈ scatteredBlocks, other.stale.contains block.line = false) ∧
      scatteredBlocks.apply mixedEndings = "// POST\r\na\r\n // GET u\n // PUT v\nw\n// DELETE z\nc".toList := by
  have inside : ∀ block ∈ scatteredBlocks, block.line < mixedEndings.lines.length := by decide
  have stays : ∀ block ∈ scatteredBlocks, ∀ other ∈ scatteredBlocks, other.stale.contains block.line = false := by
    decide
  refine ⟨inside, stays, ?_⟩
  rw [apply_eq_walked scatteredBlocks mixedEndings inside stays]
  decide +kernel

end Plan

end RouteComments
