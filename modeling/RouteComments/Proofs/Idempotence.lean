import RouteComments.Proofs.SeparateMappings

set_option autoImplicit false

namespace RouteComments

open Text

namespace Plan

open Operation

section Second

variable {doc : Document} {baseUrl : Text}

def regenerated (doc : Document) (baseUrl : Text) : Document :=
  { doc with text := (ofDocument doc baseUrl).apply doc }

theorem lines_regenerated (regular : Regular (ofDocument doc baseUrl) doc.lines.length)
    (quiet : Quiet (ofDocument doc baseUrl)) :
    (regenerated doc baseUrl).lines = (ofDocument doc baseUrl).settled doc doc.lines.length :=
  lines_result (anchored_ofDocument doc baseUrl) regular quiet.recognised

/-- A second plan says of every line that stayed either nothing or what the first said of it. Of a line of which the
first said nothing, it may say what stands above it anyway. -/
def Repeats (again : Plan) (result : Document) (plan : Plan) (doc : Document) : Prop :=
  ∀ line < doc.lines.length, plan.marksStale line = false → again.commentsAt (plan.movedTo doc line) ≠ [] →
    if plan.commentsAt line = [] then
      again.insertedAt result.lines (plan.movedTo doc line) = (doc.lines.take line).drop (runStart doc line)
    else again.commentsAt (plan.movedTo doc line) = plan.commentsAt line

instance (again : Plan) (result : Document) (plan : Plan) (doc : Document) :
    Decidable (Repeats again result plan doc) :=
  inferInstanceAs (Decidable (∀ line < doc.lines.length, _))

section Repeated

-- No mapping stands on a generated comment.
variable (plain : ∀ block ∈ ofDocument doc baseUrl, ∀ text ∈ doc.lineText? block.line,
  Comment.isGenerated text = false)

include plain

/-- Generated comments above a line without comments stay. -/
theorem settled_silent {index : Nat} (inside : index < doc.lines.length)
    (stays : (ofDocument doc baseUrl).marksStale index = false)
    (silent : (ofDocument doc baseUrl).commentsAt index = []) :
    (ofDocument doc baseUrl).settled doc index =
      (ofDocument doc baseUrl).settled doc (runStart doc index) ++
        (doc.lines.take index).drop (runStart doc index) := by
  have start := runStart_le (Nat.le_of_lt inside)
  have none : ∀ k, runStart doc index ≤ k → k ≤ index → (ofDocument doc baseUrl).commentsAt k = [] := by
    intro k lower upper
    rcases Nat.lt_or_eq_of_le upper with before | rfl
    · by_contra filled
      obtain ⟨block, planned, rfl, _⟩ := mem_of_commentsAt_ne_nil filled
      have found := List.getElem?_eq_getElem (line_lt planned)
      have own := plain block planned _ (by rw [Document.lineText?, found]; rfl)
      exact absurd (own.symm.trans (isGenerated_of_run (Nat.le_of_lt inside) lower before found)) Bool.false_ne_true
    · exact silent
  have kept : ∀ k, runStart doc index ≤ k → k ≤ index → (ofDocument doc baseUrl).marksStale k = false := by
    intro k lower upper
    -- Downwards from the line itself: below a stale line comes another one, or a line with comments.
    induction upper using Nat.decreasingInduction with
    | self => exact stays
    | of_succ k before ih =>
      rw [Bool.eq_false_iff]
      intro stale
      rcases below_stale stale with next | filled
      · exact absurd ((ih (by omega)).symm.trans next) Bool.false_ne_true
      · exact filled (none (k + 1) (by omega) before)
  have length : ((doc.lines.take index).drop (runStart doc index)).length = index - runStart doc index := by
    rw [List.length_drop, List.length_take_of_le (Nat.le_of_lt inside)]
  have untouched : settle ((ofDocument doc baseUrl).insertedAt doc.lines) (ofDocument doc baseUrl).marksStale
      (runStart doc index) ((doc.lines.take index).drop (runStart doc index)) =
      (doc.lines.take index).drop (runStart doc index) := by
    apply settle_untouched
    · exact fun k lower upper => insertedAt_eq_nil_iff.mpr (none k lower (by omega))
    · exact fun k lower upper => kept k lower (by omega)
  calc (ofDocument doc baseUrl).settled doc index
      = settle ((ofDocument doc baseUrl).insertedAt doc.lines) (ofDocument doc baseUrl).marksStale 0
          (doc.lines.take (runStart doc index) ++ (doc.lines.take index).drop (runStart doc index)) := by
        rw [settled, ← take_eq_take_append start]
    _ = _ := by
        rw [settle_append, ← settled, Nat.zero_add, List.length_take_of_le (by omega), untouched]

/-- The generated comments above a moved line without comments are those that stood there. -/
theorem run_movedTo_silent (quiet : Quiet (ofDocument doc baseUrl)) {index : Nat} (inside : index < doc.lines.length)
    (stays : (ofDocument doc baseUrl).marksStale index = false)
    (silent : (ofDocument doc baseUrl).commentsAt index = []) :
    ((regenerated doc baseUrl).lines.take ((ofDocument doc baseUrl).movedTo doc index)).drop
        (runStart (regenerated doc baseUrl) ((ofDocument doc baseUrl).movedTo doc index)) =
      (doc.lines.take index).drop (runStart doc index) := by
  have above := (take_movedTo (List.getElem?_eq_getElem inside) stays).1
  rw [← lines_regenerated (regular_of_not_generated plain) quiet, insertedAt_eq_nil_iff.mpr silent, List.append_nil,
    settled_silent plain inside stays silent] at above
  exact drop_runStart above (fun _ member => isGenerated_of_mem_run (Nat.le_of_lt inside) member) fun last ends =>
    (anchored_ofDocument doc baseUrl).last_settled_runStart (Nat.le_of_lt inside) ends

/-- What stands above a moved line is what a second plan would write there exactly if the plan repeats the first. -/
theorem run_movedTo_eq_iff (quiet : Quiet (ofDocument doc baseUrl))
    (quietAgain : Quiet (ofDocument (regenerated doc baseUrl) baseUrl)) {index : Nat}
    (inside : index < doc.lines.length) (stays : (ofDocument doc baseUrl).marksStale index = false) :
    ((regenerated doc baseUrl).lines.take ((ofDocument doc baseUrl).movedTo doc index)).drop
        (runStart (regenerated doc baseUrl) ((ofDocument doc baseUrl).movedTo doc index)) =
      (ofDocument (regenerated doc baseUrl) baseUrl).insertedAt (regenerated doc baseUrl).lines
        ((ofDocument doc baseUrl).movedTo doc index) ↔
    if (ofDocument doc baseUrl).commentsAt index = [] then
      (ofDocument (regenerated doc baseUrl) baseUrl).insertedAt (regenerated doc baseUrl).lines
        ((ofDocument doc baseUrl).movedTo doc index) = (doc.lines.take index).drop (runStart doc index)
    else (ofDocument (regenerated doc baseUrl) baseUrl).commentsAt ((ofDocument doc baseUrl).movedTo doc index) =
      (ofDocument doc baseUrl).commentsAt index := by
  have regular := regular_of_not_generated plain
  split
  · rename_i silent
    rw [run_movedTo_silent plain quiet inside stays silent]
    exact eq_comm
  · rename_i filled
    obtain ⟨block, planned, rfl, _⟩ := mem_of_commentsAt_ne_nil filled
    have anchored := anchored_ofDocument doc baseUrl
    have written : ((regenerated doc baseUrl).lines.take ((ofDocument doc baseUrl).movedTo doc block.line)).drop
        (runStart (regenerated doc baseUrl) ((ofDocument doc baseUrl).movedTo doc block.line)) =
        (ofDocument doc baseUrl).insertedAt doc.lines block.line :=
      run_movedTo anchored regular quiet.recognised planned
    have ends : Document.endingAt (regenerated doc baseUrl).lines ((ofDocument doc baseUrl).movedTo doc block.line) =
        Document.endingAt doc.lines block.line :=
      endingAt_movedTo anchored regular quiet.recognised planned filled
    rw [written, quiet.recognised.insertedAt_eq, quietAgain.recognised.insertedAt_eq, ends, eq_comm]
    exact (List.map_injective_iff.mpr fun a b same => congrArg Line.text same).eq_iff

/-- The second run finds its comments in place exactly when its plan repeats the first. -/
theorem isCurrent_regenerated_iff (quiet : Quiet (ofDocument doc baseUrl))
    (quietAgain : Quiet (ofDocument (regenerated doc baseUrl) baseUrl)) :
    IsCurrent (ofDocument (regenerated doc baseUrl) baseUrl) (regenerated doc baseUrl) ↔
      Repeats (ofDocument (regenerated doc baseUrl) baseUrl) (regenerated doc baseUrl) (ofDocument doc baseUrl)
        doc := by
  have regular := regular_of_not_generated plain
  constructor
  · intro current index inside stays filled
    obtain ⟨again, planned, place, _⟩ := mem_of_commentsAt_ne_nil filled
    have stands := current again planned
    rw [standing_eq planned, place] at stands
    exact (run_movedTo_eq_iff plain quiet quietAgain inside stays).mp stands
  · intro repeats again planned
    obtain ⟨line, there, mark⟩ := mark_of_planned planned
    rw [lines_regenerated regular quiet] at there
    obtain ⟨k, inserted⟩ | ⟨index, found, stays, place⟩ := origin_of_settled (Nat.le_refl _) there
    · -- An inserted line has no at sign.
      exact absurd mark (not_mem_of_inserted quiet inserted)
    · have inside : index < doc.lines.length := (List.getElem?_eq_some_iff.mp found).1
      have filled := commentsAt_line_ne_nil planned
      rw [place] at filled
      rw [standing_eq planned, place]
      exact (run_movedTo_eq_iff plain quiet quietAgain inside stays).mpr (repeats index inside stays filled)

end Repeated

/-- Where the mappings stand apart, the second plan repeats the first. -/
theorem repeats_of_separate (quiet : Quiet (ofDocument doc baseUrl))
    (separate : Separate (ofDocument doc baseUrl) doc) :
    Repeats (ofDocument (regenerated doc baseUrl) baseUrl) (regenerated doc baseUrl) (ofDocument doc baseUrl) doc := by
  intro index inside stays filled
  have comments : (ofDocument (regenerated doc baseUrl) baseUrl).commentsAt
      ((ofDocument doc baseUrl).movedTo doc index) = (ofDocument doc baseUrl).commentsAt index :=
    separate.commentsAt_movedTo quiet inside stays
  rw [comments] at filled
  rw [if_neg filled, comments]

end Second

end Plan

namespace Annotator

open Plan

/-- A second run changes nothing exactly when it finds above every mapping the comments that it plans, and no other
generated ones. Where no mapping stands on a generated comment, that is to say that its plan repeats the first. So it
does where the mappings stand apart. -/
theorem annotate_twice_iff (annotator : Annotator) (doc : Document)
    (quiet : Quiet (annotator.plan doc))
    (quietAgain : Quiet (annotator.plan { doc with text := annotator.annotate doc })) :
    let result : Document := { doc with text := annotator.annotate doc }
    (annotator.annotate result = annotator.annotate doc ↔
      ∀ block ∈ annotator.plan result,
        (result.lines.take block.stale.stop).drop block.stale.start =
          (annotator.plan result).insertedAt result.lines block.line) ∧
    ((∀ block ∈ annotator.plan doc, ∀ text ∈ doc.lineText? block.line, Comment.isGenerated text = false) →
      (annotator.annotate result = annotator.annotate doc ↔
        Repeats (annotator.plan result) result (annotator.plan doc) doc)) ∧
    (Separate (annotator.plan doc) doc → annotator.annotate result = annotator.annotate doc) := by
  have exact : annotator.annotate (regenerated doc annotator.baseUrl) = annotator.annotate doc ↔
      IsCurrent (annotator.plan (regenerated doc annotator.baseUrl)) (regenerated doc annotator.baseUrl) :=
    apply_eq_text_iff quietAgain
  have repeated : ∀ plain, annotator.annotate (regenerated doc annotator.baseUrl) = annotator.annotate doc ↔
      Repeats (annotator.plan (regenerated doc annotator.baseUrl)) (regenerated doc annotator.baseUrl)
        (annotator.plan doc) doc :=
    fun plain => exact.trans (isCurrent_regenerated_iff plain quiet quietAgain)
  exact ⟨exact, repeated, fun separate => (repeated separate.plain).mpr (repeats_of_separate quiet separate)⟩

/-- A mapping with a stale comment and one without, on lines that end in two ways. -/
def separateMappings : Document where
  path := Path.ofText "A.java".toList
  text := joinWith ['\n'] ["public class A \x7b\r".toList, "// GET http://old\r".toList, "@GetMapping\r".toList,
    "public void f() \x7b\x7d".toList, "  @PutMapping(\"/b\") void g();".toList]

theorem annotate_separateMappings :
    (Annotator.ofBaseUrl "http://h".toList).annotate separateMappings =
      joinWith ['\n'] ["public class A \x7b\r".toList, "// GET http://h\r".toList, "@GetMapping\r".toList,
        "public void f() \x7b\x7d".toList, "  // PUT http://h/b".toList,
        "  @PutMapping(\"/b\") void g();".toList] := by
  rw [annotate, plan, Regular.apply_eq_render (regular_of_not_generated (by decide +kernel))]
  decide +kernel

theorem separateMappings_annotate_twice :
    let annotator := Annotator.ofBaseUrl "http://h".toList
    let result : Document := { separateMappings with text := annotator.annotate separateMappings }
    Separate (annotator.plan separateMappings) separateMappings ∧
      Repeats (annotator.plan result) result (annotator.plan separateMappings) separateMappings ∧
      annotator.annotate result = annotator.annotate separateMappings := by
  intro annotator result
  have separate : Separate (annotator.plan separateMappings) separateMappings :=
    { unmarked := by decide +kernel
      leads := by decide +kernel
      closed := by decide +kernel
      declared := by decide +kernel
      complete := by decide +kernel }
  have quietAgain : Quiet (annotator.plan result) := by
    simp only [result, annotator, annotate_separateMappings]
    decide +kernel
  obtain ⟨-, repeated, sufficient⟩ := annotate_twice_iff annotator separateMappings (by decide +kernel) quietAgain
  exact ⟨separate, (repeated (by decide +kernel)).mp (sufficient separate), sufficient separate⟩

/-- Two mappings of one method. The comment of the second holds an access modifier and a brace, and so it ends the
signature of the first before the type of its variable is read. -/
def stackedMappings : Document where
  path := Path.ofText "A.java".toList
  text := joinWith ['\n'] ["class A \x7b".toList, "@GetMapping(\"/\x7bid\x7d\")".toList,
    "@PutMapping(\"/public/\x7bb\x7d\") void f(@PathVariable Long id) \x7b\x7d".toList, "\x7d".toList, []]

theorem annotate_stackedMappings :
    (Annotator.ofBaseUrl "http://h".toList).annotate stackedMappings =
      joinWith ['\n'] ["class A \x7b".toList, "// GET http://h/\x7bid:int\x7d".toList,
        "@GetMapping(\"/\x7bid\x7d\")".toList, "// PUT http://h/public/\x7bb:string\x7d".toList,
        "@PutMapping(\"/public/\x7bb\x7d\") void f(@PathVariable Long id) \x7b\x7d".toList, "\x7d".toList, []] := by
  rw [annotate, plan, Regular.apply_eq_render (regular_of_not_generated (by decide +kernel))]
  decide +kernel

theorem stackedMappings_annotate_twice :
    let annotator := Annotator.ofBaseUrl "http://h".toList
    let result : Document := { stackedMappings with text := annotator.annotate stackedMappings }
    Quiet (annotator.plan stackedMappings) ∧ Quiet (annotator.plan result) ∧
      annotator.annotate result ≠ annotator.annotate stackedMappings := by
  have quietAgain : Quiet ((Annotator.ofBaseUrl "http://h".toList).plan
      { stackedMappings with text := (Annotator.ofBaseUrl "http://h".toList).annotate stackedMappings }) := by
    rw [annotate_stackedMappings]
    decide +kernel
  refine ⟨by decide +kernel, quietAgain, mt (apply_eq_text_iff quietAgain).mp ?_⟩
  rw [annotate_stackedMappings]
  decide +kernel

end Annotator

end RouteComments
