import Mathlib.Data.List.Forall2
import RouteComments.Proofs.CurrentComments
import RouteComments.Proofs.LocatedOffsets
import RouteComments.Proofs.ScannedMappings
import RouteComments.Proofs.TypeDeclarations
import RouteComments.Proofs.WovenLines

set_option autoImplicit false

namespace RouteComments

open Text Java

namespace Plan

open Operation

/-- What stands above the comments of a block. -/
def above (doc : Document) (block : Block) : Text :=
  Line.render (doc.lines.take block.stale.start)

/-- The mappings of a document stand apart. Each leads its line, and no at sign is among the comments that are stale for
it. Above these the type is declared, no parenthesis is left open, and the signatures of the mappings before are
complete. -/
structure Separate (plan : Plan) (doc : Document) : Prop where
  unmarked : ∀ block ∈ plan, ∀ line ∈ standing doc block, '@' ∉ line.text
  leads : ∀ block ∈ plan, ∀ text ∈ doc.lineText? block.line, (skipBlanks text).head? = some '@'
  closed : ∀ block ∈ plan, Closed (above doc block)
  declared : ∀ block ∈ plan, (typeDeclarationOffset doc.text).isSome = true ∧
    typeDeclarationOffset (above doc block ++ block.indent) = typeDeclarationOffset doc.text
  complete : ∀ block ∈ plan, ∀ other ∈ plan, block.line < other.line →
    block.line + (Signature.linesFrom false (doc.lineTexts.drop block.line)).length ≤ other.stale.start

/-- A mapping of a result comes from one of the document: its line moved, and it stands on the same side of a place. -/
structure Follows (plan : Plan) (doc : Document) (place : Nat) (occurrence moved : Mapping.Occurrence) : Prop where
  kind : moved.kind = occurrence.kind
  args : moved.args = occurrence.args
  line : (plan.result doc).lineOfOffset moved.offset = plan.movedTo doc (doc.lineOfOffset occurrence.offset)
  side : moved.offset < place ↔ occurrence.offset < place

section Follows

variable {plan : Plan} {doc : Document} {place : Nat} {occurrence moved : Mapping.Occurrence}

theorem Follows.verbs (follows : Follows plan doc place occurrence moved) : moved.verbs = occurrence.verbs := by
  rw [Mapping.Occurrence.verbs, follows.kind, follows.args, Mapping.Occurrence.verbs]

theorem Follows.paths (follows : Follows plan doc place occurrence moved) : moved.paths = occurrence.paths := by
  rw [Mapping.Occurrence.paths, follows.args, Mapping.Occurrence.paths]

theorem Follows.isClassLevel (follows : Follows plan doc place occurrence moved) :
    moved.isClassLevel (some place) = occurrence.isClassLevel (some place) := by
  simp only [Mapping.Occurrence.isClassLevel, follows.kind, Option.any_some, follows.side]

end Follows

/-- A place in a document and in the result of a plan that lines to come are woven from: `shared` are the lines since
the last comments, which went on together, and `front` and `moved` are the lines above those. -/
structure Aligned (plan : Plan) (doc : Document) (place index : Nat) (front moved shared source result : List Line) :
    Prop where
  lines : doc.lines = front ++ (shared ++ source)
  movedLines : (plan.result doc).lines = moved ++ (shared ++ result)
  start : front.length + shared.length = index
  movedStart : moved.length + shared.length = (plan.settled doc index).length
  shift : ∀ k < shared.length, plan.movedTo doc (front.length + k) = moved.length + k
  sides : front = moved ∨ place ≤ bytes (Line.render front) ∧ place ≤ bytes (Line.render moved)

section Aligned

variable {plan : Plan} {doc : Document} {place index : Nat} {front moved shared source result : List Line}
  {line : Line}

/-- The mappings of shared lines follow each other. -/
theorem Aligned.follows (aligned : Aligned plan doc place index front moved shared source result) :
    List.Forall₂ (Follows plan doc place)
      ((matchesFrom Mapping.mapping? (bytes (Line.render front)) (Line.render shared)).map Mapping.Occurrence.ofMatch)
      ((matchesFrom Mapping.mapping? (bytes (Line.render moved)) (Line.render shared)).map
        Mapping.Occurrence.ofMatch) := by
  rw [← Nat.zero_add (bytes (Line.render front)), ← Nat.zero_add (bytes (Line.render moved)), matchesFrom_add,
    matchesFrom_add, List.map_map, List.map_map, List.forall₂_map_left_iff, List.forall₂_map_right_iff,
    List.forall₂_same]
  rintro ⟨offset, kind, args⟩ member
  obtain ⟨before, behind, rest, shape, rfl, read⟩ := mem_matchesFrom Mapping.mapping?_consumes member
  obtain ⟨tail, rfl, -⟩ := Mapping.mapping?_spec read
  have inside : 0 + bytes before < bytes (Line.render shared) := by
    have size := Char.utf8Size_pos '@'
    rw [shape, bytes_append, bytes_cons]
    omega
  obtain ⟨k, holds⟩ := Line.exists_holds inside
  have bound : k < shared.length := by
    obtain ⟨line, found, -⟩ := holds
    exact (List.getElem?_eq_some_iff.mp found).1
  have here : doc.lineOfOffset (0 + bytes before + bytes (Line.render front)) = front.length + k := by
    rw [Nat.add_comm]
    exact Document.lineOfOffset_of_holds (aligned.lines ▸ holds.append front source)
  have there : (plan.result doc).lineOfOffset (0 + bytes before + bytes (Line.render moved)) = moved.length + k := by
    rw [Nat.add_comm]
    exact Document.lineOfOffset_of_holds (aligned.movedLines ▸ holds.append moved result)
  refine ⟨rfl, rfl, there.trans ((aligned.shift k bound).symm.trans (congrArg _ here.symm)), ?_⟩
  simp only [Function.comp_apply, Mapping.Occurrence.ofMatch]
  rcases aligned.sides with rfl | ⟨above, movedAbove⟩
  · exact Iff.rfl
  · omega

/-- A line that stays without comments is shared. -/
theorem Aligned.kept (aligned : Aligned plan doc place index front moved shared (line :: source) (line :: result))
    (inside : index < doc.lines.length) (stays : plan.marksStale index = false) (silent : plan.commentsAt index = []) :
    Aligned plan doc place (index + 1) front moved (shared ++ [line]) source result := by
  have here : plan.movedTo doc index = moved.length + shared.length := by
    rw [movedTo, insertedAt_eq_nil_iff.mpr silent, aligned.movedStart]
    rfl
  have onward := length_settled_succ inside stays
  have start := aligned.start
  refine ⟨?_, ?_, ?_, ?_, fun k bound => ?_, aligned.sides⟩
  · rw [aligned.lines, List.append_cons shared]
  · rw [aligned.movedLines, List.append_cons shared]
  · rw [List.length_append, List.length_singleton]
    omega
  · rw [List.length_append, List.length_singleton]
    omega
  · rw [List.length_append, List.length_singleton] at bound
    rcases Nat.lt_or_eq_of_le (Nat.le_of_lt_succ bound) with before | rfl
    · exact aligned.shift k before
    · rw [start, here]

/-- Behind the comments of a block its line starts the shared lines anew. -/
theorem Aligned.commented (anchored : Anchored plan doc) (regular : Regular plan doc.lines.length) {block : Block}
    (member : block ∈ plan) {run inserted : List Line}
    (aligned : Aligned plan doc place (runStart doc block.line) front moved shared (run ++ line :: source)
      (inserted ++ line :: result))
    (runLength : runStart doc block.line + run.length = block.line)
    (insertedLength : inserted.length = (plan.insertedAt doc.lines block.line).length)
    (early : place ≤ bytes (Line.render (front ++ shared))) :
    Aligned plan doc place (block.line + 1) (front ++ (shared ++ run)) (moved ++ (shared ++ inserted)) [line] source
      result := by
  have start := aligned.start
  have movedStart := aligned.movedStart
  have settledStart := congrArg List.length (anchored.settled_runStart regular member)
  have onward := length_settled_succ (anchored.inside block member) (regular.stays block member)
  have here : plan.movedTo doc block.line = moved.length + (shared.length + inserted.length) := by
    rw [movedTo]
    omega
  refine ⟨?_, ?_, ?_, ?_, fun k bound => ?_, .inr ?_⟩
  · rw [aligned.lines, List.append_assoc, List.append_assoc, List.singleton_append]
  · rw [aligned.movedLines, List.append_assoc, List.append_assoc, List.singleton_append]
  · simp only [List.length_append, List.length_singleton]
    omega
  · simp only [List.length_append, List.length_singleton]
    omega
  · rw [List.length_singleton, Nat.lt_one_iff] at bound
    subst bound
    simp only [List.length_append]
    rw [show front.length + (shared.length + run.length) + 0 = block.line by omega, here]
    omega
  · simp only [Line.render_append, bytes_append] at early ⊢
    rcases aligned.sides with rfl | ⟨above, movedAbove⟩
    · omega
    · omega

end Aligned

/-- A block of a result that comes from one of the document: its line moved, and its comments are the same. -/
structure Moves (plan : Plan) (doc : Document) (block moved : Block) : Prop where
  line : moved.line = plan.movedTo doc block.line
  comments : moved.comments = block.comments

theorem commentsAt_of_moves {plan : Plan} {doc : Document} {index : Nat}
    (apart : ∀ block ∈ plan, plan.movedTo doc block.line = plan.movedTo doc index → block.line = index)
    {blocks moved : Plan}
    (moves : List.Forall₂ (fun block moved => block ∈ plan ∧ Moves plan doc block moved) blocks moved) :
    moved.commentsAt (plan.movedTo doc index) = blocks.commentsAt index := by
  induction moves with
  | nil => rfl
  | @cons block moved blocks others here onward ih =>
    have same : moved.line = plan.movedTo doc index ↔ block.line = index := by
      rw [here.2.line]
      exact ⟨apart block here.1, congrArg _⟩
    simp only [commentsAt, List.flatMap_cons, same, here.2.comments] at ih ⊢
    rw [ih]

section Repeated

variable {doc : Document} {baseUrl : Text} (quiet : Quiet (ofDocument doc baseUrl))
  (separate : Separate (ofDocument doc baseUrl) doc)

include separate

theorem Separate.plain : ∀ block ∈ ofDocument doc baseUrl, ∀ text ∈ doc.lineText? block.line,
    Comment.isGenerated text = false := by
  intro block planned text found
  rw [← Bool.not_eq_true]
  intro generated
  have slash := Comment.head?_of_isGenerated generated
  rw [separate.leads block planned text found] at slash
  exact absurd slash (by decide)

theorem Separate.regular : Regular (ofDocument doc baseUrl) doc.lines.length :=
  regular_of_not_generated separate.plain

/-- Generated comments and the line of a mapping below them do not open a parenthesis first. -/
theorem Separate.unopened {block : Block} (planned : block ∈ ofDocument doc baseUrl) {line : Line}
    (found : doc.lines[block.line]? = some line) {run : List Line}
    (generated : ∀ other ∈ run, Comment.isGenerated other.text = true) (rest : List Line) :
    (skipBlanks (Line.render (run ++ line :: rest))).head? ≠ some '(' := by
  have leads : (skipBlanks line.text).head? = some '@' :=
    separate.leads block planned line.text (by rw [Document.lineText?, found]; rfl)
  cases run with
  | nil =>
    rw [List.nil_append, Line.render_cons, List.append_assoc, head?_skipBlanks_append leads]
    decide
  | cons first others =>
    have slash := Comment.head?_of_isGenerated (generated first List.mem_cons_self)
    rw [List.cons_append, Line.render_cons, List.append_assoc, head?_skipBlanks_append slash]
    decide

/-- The search for mappings goes on behind complete lines and passes over the comments above a mapping. -/
theorem Separate.mappings_split {block : Block} (planned : block ∈ ofDocument doc baseUrl) {line : Line}
    (found : doc.lines[block.line]? = some line) {shared run : List Line}
    (breaking : ∀ other ∈ shared, Line.Whole other ∧ other.ending.breaksLine = true)
    (closed : Closed (Line.render shared)) (generated : ∀ other ∈ run, Comment.isGenerated other.text = true)
    (unmarked : ∀ other ∈ run, '@' ∉ other.text) (rest : List Line) (start : Nat) :
    matchesFrom Mapping.mapping? start (Line.render (shared ++ (run ++ line :: rest))) =
      matchesFrom Mapping.mapping? start (Line.render shared) ++
        matchesFrom Mapping.mapping? (start + bytes (Line.render (shared ++ run))) (Line.render (line :: rest)) := by
  have passed := Mapping.mapping?_needs.fails (not_mem_render unmarked) (Line.render (line :: rest))
  rw [Line.render_append, Mapping.matchesFrom_mapping?_append (Line.getLast?_render breaking) closed
    (separate.unopened planned found generated rest), Line.render_append run, matchesFrom_append passed,
    Line.render_append shared, bytes_append, Nat.add_assoc]

theorem Separate.declared_early {declaration : Nat} (declared : typeDeclarationOffset doc.text = some declaration) :
    ∀ block ∈ ofDocument doc baseUrl, declaration ≤ bytes (above doc block) := by
  intro block planned
  have there := (separate.declared block planned).2
  rw [declared] at there
  exact le_of_typeDeclarationOffset_append_blanks (indent_blank planned) there

include quiet

theorem Separate.result_lines :
    ((ofDocument doc baseUrl).result doc).lines = (ofDocument doc baseUrl).settled doc doc.lines.length :=
  lines_result (anchored_ofDocument doc baseUrl) separate.regular quiet.recognised

/-- Along a weaving, the mappings of the result follow those of the document. -/
theorem Separate.follows {place index : Nat}
    (early : ∀ block ∈ ofDocument doc baseUrl, place ≤ bytes (above doc block)) {source result : List Line}
    (woven : Woven (ofDocument doc baseUrl) doc index source result) {front moved shared : List Line}
    (aligned : Aligned (ofDocument doc baseUrl) doc place index front moved shared source result) :
    List.Forall₂ (Follows (ofDocument doc baseUrl) doc place)
      ((matchesFrom Mapping.mapping? (bytes (Line.render front)) (Line.render (shared ++ source))).map
        Mapping.Occurrence.ofMatch)
      ((matchesFrom Mapping.mapping? (bytes (Line.render moved)) (Line.render (shared ++ result))).map
        Mapping.Occurrence.ofMatch) := by
  have anchored := anchored_ofDocument doc baseUrl
  have regular := separate.regular
  induction woven generalizing front moved shared with
  | done =>
    rw [List.append_nil]
    exact aligned.follows
  | @kept index line source result found stays silent onward ih =>
    have onwardAligned := aligned.kept (List.getElem?_eq_some_iff.mp found).1 stays silent
    rw [List.append_cons shared line source, List.append_cons shared line result]
    exact ih onwardAligned
  | @commented block line source result planned found onward ih =>
    have inside := Nat.le_of_lt (anchored.inside block planned)
    have aboveEq : above doc block = Line.render (front ++ shared) := by
      have length : (front ++ shared).length = runStart doc block.line := by
        rw [List.length_append, aligned.start]
      rw [above, stale_eq planned, aligned.lines, ← List.append_assoc]
      exact congrArg Line.render (List.take_left' length)
    have closed : Closed (Line.render shared) := by
      refine (separate.closed block planned).suffix ?_
      rw [aboveEq, Line.render_append]
      exact List.suffix_append _ _
    have breaking : ∀ other ∈ shared, Line.Whole other ∧ other.ending.breaksLine = true := by
      have canonical := Line.canonical_read doc.text
      rw [← Document.lines, aligned.lines, ← List.append_assoc] at canonical
      intro other member
      refine canonical.breaks ?_ other (List.mem_append_right _ member)
      exact List.append_ne_nil_of_right_ne_nil _ (List.cons_ne_nil line source)
    have unmarked := separate.unmarked block planned
    rw [standing_eq planned] at unmarked
    rw [separate.mappings_split planned found breaking closed (fun _ => isGenerated_of_mem_run inside) unmarked,
      separate.mappings_split planned found breaking closed
        (fun _ member => (quiet.recognised.inserted_spec member).1) fun _ => not_mem_of_inserted quiet,
      List.map_append, List.map_append]
    refine List.rel_append aligned.follows ?_
    rw [← bytes_append, ← Line.render_append, ← bytes_append, ← Line.render_append]
    exact ih (aligned.commented anchored regular planned (runStart_add_length inside) rfl
      (aboveEq ▸ early block planned))

/-- The result declares the type where the document does. -/
theorem Separate.declared_result {declaration : Nat} (declared : typeDeclarationOffset doc.text = some declaration) :
    typeDeclarationOffset ((ofDocument doc baseUrl).result doc).text = some declaration := by
  have lines := separate.result_lines quiet
  rw [← Line.render_read ((ofDocument doc baseUrl).result doc).text, ← Document.lines, lines]
  rcases (woven_settled (anchored_ofDocument doc baseUrl) separate.regular).shared with
    same | ⟨block, planned, front, back, written, shape, filled, result, place⟩
  · rw [← same, Document.lines, Line.render_read, declared]
  · obtain ⟨comment, others, comments⟩ := List.exists_cons_of_ne_nil (commentsAt_line_ne_nil planned)
    obtain ⟨twin, twinPlanned, line, inside⟩ := mem_commentsAt.mp (comments ▸ List.mem_cons_self)
    obtain ⟨endpoint, endpointMember, rfl⟩ := List.mem_map.mp inside
    obtain ⟨rest, -, opening⟩ := Comment.comment_eq (verb_known twinPlanned endpoint endpointMember)
      (quiet twin twinPlanned _ inside).1 (indent_unbroken twinPlanned)
    have aboveEq : above doc twin = Line.render front := by
      rw [Nat.zero_add, ← line] at place
      rw [above, stale_eq twinPlanned, shape]
      exact congrArg Line.render (List.take_left' place)
    have there := (separate.declared twin twinPlanned).2
    rw [declared] at there
    have closed := (separate.closed twin twinPlanned).append_blanks (indent_blank twinPlanned)
    have onward := typeDeclarationOffset_append (c := '/') (by decide) (by decide) (by decide) (by decide) closed there
    rw [aboveEq] at onward
    rw [result, quiet.recognised.insertedAt_eq, comments, List.map_cons, opening, Line.render_append, List.cons_append,
      Line.render_cons, List.append_assoc, List.append_assoc, List.append_assoc, ← List.append_assoc]
    exact onward _

/-- The signature of a mapping is the same where the mapping moved. -/
theorem Separate.signature {block : Block} (planned : block ∈ ofDocument doc baseUrl) :
    Signature.linesFrom false (((ofDocument doc baseUrl).result doc).lineTexts.drop
        ((ofDocument doc baseUrl).movedTo doc block.line)) =
      Signature.linesFrom false (doc.lineTexts.drop block.line) := by
  have anchored := anchored_ofDocument doc baseUrl
  have regular := separate.regular
  have inside := line_lt planned
  have found := List.getElem?_eq_getElem inside
  have stays := regular.stays block planned
  have moved : ((ofDocument doc baseUrl).result doc).lines.drop ((ofDocument doc baseUrl).movedTo doc block.line) =
      doc.lines[block.line] :: settle ((ofDocument doc baseUrl).insertedAt doc.lines)
        (ofDocument doc baseUrl).marksStale (block.line + 1) (doc.lines.drop (block.line + 1)) := by
    rw [separate.result_lines quiet, settled_all_eq_append found stays, List.drop_left' (by
      rw [List.length_append, movedTo])]
  rw [Document.lineTexts, ← List.map_drop, moved, Document.lineTexts, ← List.map_drop,
    List.drop_eq_getElem_cons inside]
  rcases (woven_drop anchored regular (parts_below anchored regular planned) inside).shared with
    same | ⟨other, otherPlanned, front, back, written, shape, filled, result, place⟩
  · rw [← same]
  · have below := runStart_le (Nat.le_of_lt (line_lt otherPlanned))
    have complete := separate.complete block planned other otherPlanned (by omega)
    have start : other.stale.start = runStart doc other.line := congrArg LineRange.start (stale_eq otherPlanned)
    rw [start, ← place, Document.lineTexts, ← List.map_drop, List.drop_eq_getElem_cons inside] at complete
    rw [result]
    rw [shape] at complete ⊢
    simp only [← List.cons_append, List.map_append] at complete ⊢
    refine Signature.linesFrom_append (mt List.map_eq_nil_iff.mp filled) ?_ _
    rw [List.length_map, List.length_cons]
    omega

/-- The mappings of methods in the result follow those in the document, and the base path is the same. -/
theorem Separate.methods_follow {declaration : Nat} (declared : typeDeclarationOffset doc.text = some declaration) :
    List.Forall₂ (Follows (ofDocument doc baseUrl) doc declaration) (Mapping.methodMappings doc.text)
        (Mapping.methodMappings ((ofDocument doc baseUrl).result doc).text) ∧
      Mapping.classBasePath ((ofDocument doc baseUrl).result doc).text = Mapping.classBasePath doc.text := by
  have lines := separate.result_lines quiet
  have aligned : Aligned (ofDocument doc baseUrl) doc declaration 0 [] [] [] doc.lines
      ((ofDocument doc baseUrl).settled doc doc.lines.length) :=
    { lines := rfl
      movedLines := lines
      start := rfl
      movedStart := by rw [settled_zero]; rfl
      shift := fun k bound => absurd bound (Nat.not_lt_zero k)
      sides := .inl rfl }
  have all : List.Forall₂ (Follows (ofDocument doc baseUrl) doc declaration) (Mapping.mappings doc.text)
      (Mapping.mappings ((ofDocument doc baseUrl).result doc).text) := by
    have source : Line.render doc.lines = doc.text := Line.render_read doc.text
    have result : Line.render ((ofDocument doc baseUrl).settled doc doc.lines.length) =
        ((ofDocument doc baseUrl).result doc).text := by
      rw [← lines, Document.lines, Line.render_read]
    rw [Mapping.mappings_eq, Mapping.mappings_eq, ← result, ← source]
    exact separate.follows quiet (separate.declared_early declared)
      (woven_settled (anchored_ofDocument doc baseUrl) separate.regular) aligned
  have there := separate.declared_result quiet declared
  have classes : List.Forall₂ (Follows (ofDocument doc baseUrl) doc declaration)
      ((Mapping.mappings doc.text).filter (·.isClassLevel (some declaration)))
      ((Mapping.mappings ((ofDocument doc baseUrl).result doc).text).filter (·.isClassLevel (some declaration))) :=
    List.rel_filter (fun _ _ follows => by simp only [follows.isClassLevel]) all
  have paths : List.Forall₂ (· = ·)
      (((Mapping.mappings doc.text).filter (·.isClassLevel (some declaration))).map (·.paths))
      (((Mapping.mappings ((ofDocument doc baseUrl).result doc).text).filter
        (·.isClassLevel (some declaration))).map (·.paths)) :=
    List.forall₂_map_left_iff.mpr (List.forall₂_map_right_iff.mpr
      (classes.imp fun _ _ follows => follows.paths.symm))
  constructor
  · simp only [Mapping.methodMappings, declared, there]
    exact List.rel_filter (fun _ _ follows => by simp only [follows.isClassLevel]) all
  · rw [List.forall₂_eq_eq_eq] at paths
    rw [Mapping.classBasePath_eq, Mapping.classBasePath_eq, declared, there, paths]

/-- The second plan is the first, with each block where its line went. -/
theorem Separate.blocks_move {declaration : Nat} (declared : typeDeclarationOffset doc.text = some declaration) :
    List.Forall₂ (fun block moved => block ∈ ofDocument doc baseUrl ∧ Moves (ofDocument doc baseUrl) doc block moved)
      (ofDocument doc baseUrl) (ofDocument ((ofDocument doc baseUrl).result doc) baseUrl) := by
  obtain ⟨methods, basePath⟩ := separate.methods_follow quiet declared
  have listed : ∀ occurrence ∈ Mapping.methodMappings doc.text,
      blockAt doc.lineTexts (doc.lineOfOffset occurrence.offset) baseUrl (Mapping.classBasePath doc.text) occurrence ∈
        ofDocument doc baseUrl := fun occurrence member => mem_ofDocument.mpr ⟨occurrence, member, rfl⟩
  have both := (List.forall₂_and_left _ _).mpr ⟨listed, methods⟩
  refine List.forall₂_map_left_iff.mpr (List.forall₂_map_right_iff.mpr (both.imp ?_))
  rintro occurrence moved ⟨planned, follows⟩
  refine ⟨planned, follows.line, ?_⟩
  have signature : Signature.linesFrom false (((ofDocument doc baseUrl).result doc).lineTexts.drop
      ((ofDocument doc baseUrl).movedTo doc (doc.lineOfOffset occurrence.offset))) =
      Signature.linesFrom false (doc.lineTexts.drop (doc.lineOfOffset occurrence.offset)) :=
    separate.signature quiet planned
  have text : ((ofDocument doc baseUrl).result doc).lineTexts[(ofDocument doc baseUrl).movedTo doc
      (doc.lineOfOffset occurrence.offset)]? = doc.lineTexts[doc.lineOfOffset occurrence.offset]? := by
    have line : ((ofDocument doc baseUrl).result doc).lines[(ofDocument doc baseUrl).movedTo doc
        (doc.lineOfOffset occurrence.offset)]? = doc.lines[doc.lineOfOffset occurrence.offset]? :=
      (result_movedTo (anchored_ofDocument doc baseUrl) separate.regular quiet.recognised planned).2
    rw [Document.lineTexts, List.getElem?_map, line, Document.lineTexts, List.getElem?_map]
  simp only [Block.comments, blockAt, resolveEndpoints, Signature.span, follows.verbs, follows.paths, follows.line,
    basePath, signature, text]

/-- A second plan says of the lines that stayed what the first said of them. -/
theorem Separate.commentsAt_movedTo {index : Nat} (inside : index < doc.lines.length)
    (stays : (ofDocument doc baseUrl).marksStale index = false) :
    (ofDocument ((ofDocument doc baseUrl).result doc) baseUrl).commentsAt
        ((ofDocument doc baseUrl).movedTo doc index) = (ofDocument doc baseUrl).commentsAt index := by
  cases planned : ofDocument doc baseUrl with
  | nil =>
    have current : IsCurrent (ofDocument doc baseUrl) doc := by
      rw [planned]
      exact fun block member => absurd member List.not_mem_nil
    have unchanged : (ofDocument doc baseUrl).result doc = doc := by
      rw [result, current.apply_eq quiet]
    rw [← planned, unchanged, planned]
    rfl
  | cons block rest =>
    have member : block ∈ ofDocument doc baseUrl := planned ▸ List.mem_cons_self
    obtain ⟨declaration, declared⟩ := Option.isSome_iff_exists.mp (separate.declared block member).1
    rw [← planned]
    refine commentsAt_of_moves (fun other otherPlanned same => ?_) (separate.blocks_move quiet declared)
    exact movedTo_injective (line_lt otherPlanned) (separate.regular.stays other otherPlanned) inside stays same

end Repeated

end Plan

end RouteComments
