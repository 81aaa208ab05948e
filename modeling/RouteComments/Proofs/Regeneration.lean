import RouteComments.Proofs.SettledLines

set_option autoImplicit false

namespace RouteComments

open Text

theorem Endpoint.comment_unbroken {indent : Text} {endpoint : Endpoint} (indentUnbroken : '\n' ∉ indent)
    (known : endpoint.verb ∈ Mapping.verbs) (urlUnbroken : '\n' ∉ endpoint.url) : '\n' ∉ endpoint.comment indent := by
  have opening : '\n' ∉ Comment.opening endpoint.verb := Comment.opening_unbroken endpoint.verb known
  have whole : '\n' ∉ indent ++ "// ".toList ++ endpoint.verb ++ ' ' :: endpoint.url := by
    have space : '\n' ≠ ' ' := by decide
    simp only [Comment.opening, List.mem_append, not_or] at opening
    simp only [List.mem_append, List.mem_cons, not_or]
    exact ⟨⟨⟨indentUnbroken, opening.1⟩, opening.2⟩, space, urlUnbroken⟩
  obtain ⟨back, shape⟩ := dropEndWhile_prefix (p := isBlank) (indent ++ "// ".toList ++ endpoint.verb ++
    ' ' :: endpoint.url)
  intro found
  apply whole
  rw [shape]
  exact List.mem_append_left back found

namespace Plan

open Operation

/-- A plan such as is made for a document, with any endpoints: each block stands on a line that is no generated
comment, takes the generated comments above it for stale, and has at least one comment, all of them on one line. -/
structure Suits (plan : Plan) (doc : Document) : Prop extends Anchored plan doc where
  plain : ∀ block ∈ plan, ∀ text ∈ doc.lineText? block.line, Comment.isGenerated text = false
  filled : ∀ block ∈ plan, block.endpoints ≠ []
  verbs : ∀ block ∈ plan, ∀ endpoint ∈ block.endpoints, endpoint.verb ∈ Mapping.verbs
  urls : ∀ block ∈ plan, ∀ endpoint ∈ block.endpoints, '\n' ∉ endpoint.url
  indents : ∀ block ∈ plan, (∀ c ∈ block.indent, isBlank c = true) ∧ '\n' ∉ block.indent

theorem Suits.regular {plan : Plan} {doc : Document} (suits : Suits plan doc) : Regular plan doc.lines.length :=
  suits.toAnchored.regular suits.plain

theorem Suits.recognised {plan : Plan} {doc : Document} (suits : Suits plan doc) : Recognised plan := by
  intro block member comment commentMember
  obtain ⟨endpoint, endpointMember, rfl⟩ := List.mem_map.mp commentMember
  obtain ⟨blank, indentUnbroken⟩ := suits.indents block member
  have known := suits.verbs block member endpoint endpointMember
  have unbroken := Endpoint.comment_unbroken indentUnbroken known (suits.urls block member endpoint endpointMember)
  exact ⟨unbroken, Comment.isGenerated_comment blank known unbroken indentUnbroken⟩

theorem Suits.commentsAt_ne_nil {plan : Plan} {doc : Document} (suits : Suits plan doc) {block : Block}
    (member : block ∈ plan) : plan.commentsAt block.line ≠ [] := by
  have comments : block.comments ≠ [] := mt List.map_eq_nil_iff.mp (suits.filled block member)
  obtain ⟨comment, inside⟩ := List.exists_mem_of_ne_nil _ comments
  exact List.ne_nil_of_mem (mem_commentsAt.mpr ⟨block, member, rfl, inside⟩)

section Places

variable {plan : Plan} {doc : Document} {index other : Nat}

theorem length_settled_succ (inside : index < doc.lines.length) (stays : plan.marksStale index = false) :
    (plan.settled doc (index + 1)).length = plan.movedTo doc index + 1 := by
  rw [settled_succ plan (List.getElem?_eq_getElem inside), stays, movedTo]
  simp only [Bool.false_eq_true, if_false, List.length_append, List.length_singleton]

theorem length_settled_le (plan : Plan) (doc : Document) (forward : index ≤ other) :
    (plan.settled doc index).length ≤ (plan.settled doc other).length := by
  have split := settle_append (plan.insertedAt doc.lines) plan.marksStale 0 (doc.lines.take index)
    ((doc.lines.take other).drop index)
  rw [← take_eq_take_append forward] at split
  rw [settled, settled, split, List.length_append]
  omega

/-- A line that stays moves to a place before all that the lines below it become. -/
theorem movedTo_lt_settled (inside : index < doc.lines.length) (stays : plan.marksStale index = false)
    (below : index < other) : plan.movedTo doc index < (plan.settled doc other).length := by
  have here := length_settled_succ inside stays
  have later := length_settled_le plan doc (show index + 1 ≤ other by omega)
  omega

theorem settled_le_movedTo (plan : Plan) (doc : Document) (index : Nat) :
    (plan.settled doc index).length ≤ plan.movedTo doc index :=
  Nat.le_add_right _ _

theorem movedTo_injective (inside : index < doc.lines.length) (stays : plan.marksStale index = false)
    (otherInside : other < doc.lines.length) (otherStays : plan.marksStale other = false)
    (same : plan.movedTo doc index = plan.movedTo doc other) : index = other := by
  have lower := settled_le_movedTo plan doc index
  have otherLower := settled_le_movedTo plan doc other
  rcases Nat.lt_trichotomy index other with before | equal | behind
  · have apart := movedTo_lt_settled inside stays before
    omega
  · exact equal
  · have apart := movedTo_lt_settled otherInside otherStays behind
    omega

end Places

/-- A plan for a document, made to fit what another plan made of the document: each block goes where its line went, and
takes what stands above it there for stale. -/
def movedBehind (plan earlier : Plan) (doc : Document) : Plan :=
  plan.map fun block =>
    { block with
      line := earlier.movedTo doc block.line
      stale := Comment.staleAbove (earlier.result doc).lineTexts (earlier.movedTo doc block.line) }

section Twice

variable {earlier later : Plan} {doc : Document} (suits : Suits earlier doc) (suitsToo : Suits later doc)
  (sameLines : ∀ line, (∃ block ∈ earlier, block.line = line) ↔ ∃ block ∈ later, block.line = line)

include sameLines in
theorem marksStale_eq (anchored : Anchored earlier doc) (anchoredToo : Anchored later doc) (index : Nat) :
    later.marksStale index = earlier.marksStale index := by
  rw [Bool.eq_iff_iff, marksStale, marksStale, List.any_eq_true, List.any_eq_true]
  constructor
  · rintro ⟨block, member, inside⟩
    obtain ⟨twin, twinMember, same⟩ := (sameLines block.line).mpr ⟨block, member, rfl⟩
    refine ⟨twin, twinMember, ?_⟩
    rw [anchored.stale twin twinMember, same, ← anchoredToo.stale block member]
    exact inside
  · rintro ⟨block, member, inside⟩
    obtain ⟨twin, twinMember, same⟩ := (sameLines block.line).mp ⟨block, member, rfl⟩
    refine ⟨twin, twinMember, ?_⟩
    rw [anchoredToo.stale twin twinMember, same, ← anchored.stale block member]
    exact inside

include suits sameLines

/-- The later plan finds above each of its blocks, where it moved to, the comments of the earlier plan and no others. -/
theorem staleAbove_later {block : Block} (member : block ∈ later) :
    Comment.staleAbove (earlier.result doc).lineTexts (earlier.movedTo doc block.line) =
      { start := (earlier.settled doc block.line).length, stop := earlier.movedTo doc block.line } := by
  obtain ⟨twin, twinMember, same⟩ := (sameLines block.line).mpr ⟨block, member, rfl⟩
  rw [← same]
  exact staleAbove_movedTo suits.toAnchored suits.regular suits.recognised twinMember

theorem line_later {block : Block} (member : block ∈ later) :
    (earlier.result doc).lines[earlier.movedTo doc block.line]? = doc.lines[block.line]? := by
  obtain ⟨twin, twinMember, same⟩ := (sameLines block.line).mpr ⟨block, member, rfl⟩
  rw [← same]
  exact (result_movedTo suits.toAnchored suits.regular suits.recognised twinMember).2

theorem stays_later {block : Block} (member : block ∈ later) : earlier.marksStale block.line = false := by
  obtain ⟨twin, twinMember, same⟩ := (sameLines block.line).mpr ⟨block, member, rfl⟩
  rw [← same]
  exact suits.regular.stays twin twinMember

/-- What is stale for the moved plan: the comments of the earlier plan. -/
theorem marksStale_movedBehind (place : Nat) :
    (later.movedBehind earlier doc).marksStale place = true ↔ ∃ block ∈ later,
      (earlier.settled doc block.line).length ≤ place ∧ place < earlier.movedTo doc block.line := by
  rw [marksStale, movedBehind, List.any_map, List.any_eq_true]
  refine exists_congr fun block => and_congr_right fun member => ?_
  rw [Function.comp_apply, LineRange.contains_iff, staleAbove_later suits sameLines member]

include suitsToo

theorem movedBehind_anchored : Anchored (later.movedBehind earlier doc) (earlier.result doc) where
  inside := by
    rw [movedBehind, List.forall_mem_map]
    intro block member
    have there := line_later suits sameLines member
    rw [List.getElem?_eq_getElem (suitsToo.inside block member)] at there
    exact (List.getElem?_eq_some_iff.mp there).1
  stale := by
    rw [movedBehind, List.forall_mem_map]
    exact fun block _ => rfl

theorem movedBehind_regular :
    Regular (later.movedBehind earlier doc) (earlier.result doc).lines.length := by
  apply (movedBehind_anchored suits suitsToo sameLines).regular
  rw [movedBehind, List.forall_mem_map]
  intro block member text found
  apply suitsToo.plain block member text
  rw [Document.lineText?, line_later suits sameLines member] at found
  exact found

section Place

variable {index : Nat} (inside : index < doc.lines.length) (stays : earlier.marksStale index = false)

include inside stays

/-- A line that stayed once stays again. -/
theorem not_stale_movedTo : (later.movedBehind earlier doc).marksStale (earlier.movedTo doc index) = false := by
  rw [Bool.eq_false_iff, ne_eq, marksStale_movedBehind suits sameLines]
  rintro ⟨block, member, lower, upper⟩
  have blockInside := suitsToo.inside block member
  have blockStays := stays_later suits sameLines member
  have start := settled_le_movedTo earlier doc index
  rcases Nat.lt_trichotomy index block.line with before | same | behind
  · have apart := movedTo_lt_settled inside stays before
    omega
  · rw [same] at upper
    omega
  · have apart := movedTo_lt_settled blockInside blockStays behind
    omega

theorem commentsAt_movedTo :
    (later.movedBehind earlier doc).commentsAt (earlier.movedTo doc index) = later.commentsAt index := by
  rw [commentsAt, movedBehind, List.flatMap_map, commentsAt]
  refine List.flatMap_congr fun block member => ?_
  have blockInside := suitsToo.inside block member
  have blockStays := stays_later suits sameLines member
  by_cases same : block.line = index
  · rw [if_pos same, if_pos (by rw [same])]
    rfl
  · have apart : earlier.movedTo doc block.line ≠ earlier.movedTo doc index :=
      fun equal => same (movedTo_injective blockInside blockStays inside stays equal)
    rw [if_neg same, if_neg apart]

/-- The moved plan inserts before a line what the later plan inserts there. -/
theorem insertedAt_movedTo :
    (later.movedBehind earlier doc).insertedAt (earlier.result doc).lines (earlier.movedTo doc index) =
      later.insertedAt doc.lines index := by
  have comments := commentsAt_movedTo suits suitsToo sameLines inside stays
  by_cases silent : later.commentsAt index = []
  · rw [insertedAt_eq_nil_iff.mpr silent, insertedAt_eq_nil_iff, comments, silent]
  · obtain ⟨block, member, rfl, _⟩ := mem_of_commentsAt_ne_nil silent
    obtain ⟨twin, twinMember, same⟩ := (sameLines block.line).mpr ⟨block, member, rfl⟩
    have ends := endingAt_movedTo suits.toAnchored suits.regular suits.recognised twinMember
      (suits.commentsAt_ne_nil twinMember)
    rw [same] at ends
    rw [insertedAt, comments, ends, insertedAt]

/-- Between what the lines above became and the line itself, the moved plan finds only stale lines. -/
theorem settled_movedTo :
    (later.movedBehind earlier doc).settled (earlier.result doc) (earlier.movedTo doc index) =
      (later.movedBehind earlier doc).settled (earlier.result doc) (earlier.settled doc index).length := by
  have regular := movedBehind_regular suits suitsToo sameLines
  have stale : ∀ place, (earlier.settled doc index).length ≤ place → place < earlier.movedTo doc index →
      (later.movedBehind earlier doc).marksStale place = true := by
    intro place lower upper
    have written : earlier.insertedAt doc.lines index ≠ [] := by
      intro none
      rw [movedTo, none, List.length_nil] at upper
      omega
    obtain ⟨twin, twinMember, rfl, _⟩ := mem_of_commentsAt_ne_nil (mt insertedAt_eq_nil_iff.mpr written)
    obtain ⟨block, member, same⟩ := (sameLines twin.line).mp ⟨twin, twinMember, rfl⟩
    rw [marksStale_movedBehind suits sameLines]
    refine ⟨block, member, ?_⟩
    rw [same]
    exact ⟨lower, upper⟩
  have bound : earlier.movedTo doc index < (earlier.result doc).lines.length := by
    rw [lines_result suits.toAnchored suits.regular suits.recognised]
    exact movedTo_lt_settled inside stays inside
  exact settled_eq_of_stale (settled_le_movedTo earlier doc index) (Nat.le_of_lt bound) stale
    fun place lower upper => regular.insertedAt_stale (stale place lower upper)

end Place

/-- The lines of the earlier result settle, document line by document line, to what the later plan makes of them. -/
theorem settled_movedBehind {count : Nat} (inside : count ≤ doc.lines.length) :
    (later.movedBehind earlier doc).settled (earlier.result doc) (earlier.settled doc count).length =
      later.settled doc count := by
  have same := marksStale_eq sameLines suits.toAnchored suitsToo.toAnchored
  induction count with
  | zero => rw [settled_zero, List.length_nil, settled_zero, settled_zero]
  | succ index ih =>
    have here : index < doc.lines.length := by omega
    have found := List.getElem?_eq_getElem here
    have above := ih (by omega)
    cases stale : earlier.marksStale index with
    | true =>
      have staleToo : later.marksStale index = true := (same index).trans stale
      rw [settled_succ earlier found, suits.regular.insertedAt_stale stale, if_pos stale, settled_succ later found,
        suitsToo.regular.insertedAt_stale staleToo, if_pos staleToo]
      simpa only [List.append_nil] using above
    | false =>
      have staysToo : later.marksStale index = false := (same index).trans stale
      have there : (earlier.result doc).lines[earlier.movedTo doc index]? = some doc.lines[index] := by
        rw [lines_result suits.toAnchored suits.regular suits.recognised]
        exact (take_movedTo found stale).2
      rw [length_settled_succ here stale, settled_succ _ there, settled_movedTo suits suitsToo sameLines here stale,
        insertedAt_movedTo suits suitsToo sameLines here stale, not_stale_movedTo suits suitsToo sameLines here stale,
        above, settled_succ later found, staysToo]

end Twice

/-- Of two plans with blocks on the same lines the last wins: applied where the blocks went in the result of the first,
it makes what it makes of the document itself. Above each block it deletes the lines that the first inserted there. -/
theorem last_plan_wins (earlier later : Plan) (doc : Document) (suits : Suits earlier doc) (suitsToo : Suits later doc)
    (sameLines : ∀ line, (∃ block ∈ earlier, block.line = line) ↔ ∃ block ∈ later, block.line = line) :
    (later.movedBehind earlier doc).apply (earlier.result doc) = later.apply doc ∧
      ∀ block ∈ later,
        let place := earlier.movedTo doc block.line
        let stale := Comment.staleAbove (earlier.result doc).lineTexts place
        (earlier.result doc).lines[place]? = doc.lines[block.line]? ∧
          ((earlier.result doc).lines.take stale.stop).drop stale.start = earlier.insertedAt doc.lines block.line := by
  refine ⟨?_, fun block member => ⟨line_later suits sameLines member, ?_⟩⟩
  · have whole := settled_movedBehind suits suitsToo sameLines (Nat.le_refl doc.lines.length)
    rw [← lines_result suits.toAnchored suits.regular suits.recognised] at whole
    rw [(movedBehind_regular suits suitsToo sameLines).apply_eq_render, suitsToo.regular.apply_eq_render, whole]
  · obtain ⟨twin, twinMember, same⟩ := (sameLines block.line).mpr ⟨block, member, rfl⟩
    rw [staleAbove_later suits sameLines member, ← same]
    dsimp only
    rw [(result_movedTo suits.toAnchored suits.regular suits.recognised twinMember).1, List.drop_left]

/-- Two lines with a block each, the first below a stale comment, the second without a terminator. -/
def staleAndBare : Document where
  path := Path.ofText "A.java".toList
  text := "// GET http://old\r\n\t@GetMapping\r\nvoid f();\n@PutMapping void g();".toList

def bothBlocks (first second : List Endpoint) : Plan :=
  [{ occurrence := { kind := .put, args := [], offset := 45 }, line := 3, indent := [], endpoints := second
     stale := { start := 3, stop := 3 } },
   { occurrence := { kind := .get, args := [], offset := 20 }, line := 1, indent := "\t".toList, endpoints := first
     stale := { start := 0, stop := 1 } }]

theorem bothBlocks_indents (first second : List Endpoint) : ∀ block ∈ bothBlocks first second,
    (∀ c ∈ block.indent, isBlank c = true) ∧ '\n' ∉ block.indent := by
  intro block member
  simp only [bothBlocks, List.mem_cons, List.not_mem_nil, or_false] at member
  rcases member with rfl | rfl
  · exact ⟨fun c inside => absurd inside List.not_mem_nil, List.not_mem_nil⟩
  · have blank : "\t".toList.all isBlank = true := by decide
    have unbroken : '\n' ∉ "\t".toList := by decide
    exact ⟨List.all_eq_true.mp blank, unbroken⟩

theorem staleAndBare_last_plan_wins :
    let earlier := bothBlocks [⟨"GET".toList, "http://a".toList⟩, ⟨"POST".toList, []⟩] [⟨"PUT".toList, "b".toList⟩]
    let later := bothBlocks [⟨"REQUEST".toList, "http://c".toList⟩] [⟨"DELETE".toList, "d".toList⟩, ⟨"PUT".toList, []⟩]
    (later.movedBehind earlier staleAndBare).apply (earlier.result staleAndBare) = later.apply staleAndBare :=
  (last_plan_wins (bothBlocks _ _) (bothBlocks _ _) staleAndBare
    ⟨⟨by decide +kernel, by decide +kernel⟩, by decide +kernel, by decide, by decide, by decide, bothBlocks_indents _ _⟩
    ⟨⟨by decide +kernel, by decide +kernel⟩, by decide +kernel, by decide, by decide, by decide, bothBlocks_indents _ _⟩
    fun line => by
      simp only [bothBlocks, List.mem_cons, List.not_mem_nil, or_false, exists_eq_or_imp, exists_eq_left]).1

end Plan

end RouteComments
