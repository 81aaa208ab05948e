import RouteComments.Proofs.PlannedBlocks
import RouteComments.Proofs.PlanOperations
import RouteComments.Proofs.Readers

set_option autoImplicit false

namespace RouteComments

open Text

namespace Comment

theorem opening_solid : ∀ verb ∈ Mapping.verbs, trimEnd (opening verb) = opening verb := by decide

theorem opening_unbroken : ∀ verb ∈ Mapping.verbs, '\n' ∉ opening verb := by decide

theorem opensWith_opening {verb rest : Text} (spaced : rest = [] ∨ ∃ more, rest = ' ' :: more) :
    opensWith verb (opening verb ++ rest) = true := by
  have behind : after? (opening verb) (opening verb ++ rest) = some rest := after?_eq_some_iff.mpr rfl
  rw [opensWith, behind]
  rcases spaced with rfl | ⟨more, rfl⟩ <;> rfl

/-- Blanks, an opening, and nothing or a space and anything make a generated comment. -/
theorem isGenerated_of_opening {indent verb rest : Text} (blank : ∀ c ∈ indent, isBlank c = true)
    (known : verb ∈ Mapping.verbs) (spaced : rest = [] ∨ ∃ more, rest = ' ' :: more) :
    isGenerated (indent ++ opening verb ++ rest) = true := by
  have solid := opening_solid verb known
  have filled : trimEnd (opening verb) ≠ [] := by
    rw [solid]
    exact List.cons_ne_nil _ _
  have start : trim (indent ++ opening verb ++ rest) = trimEnd (opening verb ++ rest) := by
    rw [trim, dropAround, List.append_assoc, List.dropWhile_append_of_pos blank]
    rfl
  rw [isGenerated, List.any_eq_true]
  refine ⟨verb, known, ?_⟩
  rw [start]
  by_cases allBlank : ∀ c ∈ rest, isBlank c = true
  · rw [trimEnd, dropEndWhile_append_of_all allBlank, ← trimEnd, solid, ← List.append_nil (opening verb)]
    exact opensWith_opening (.inl rfl)
  · rcases spaced with rfl | ⟨more, rfl⟩
    · exact absurd (fun c member => absurd member List.not_mem_nil) allBlank
    · have left : dropEndWhile isBlank more ≠ [] := by
        rw [ne_eq, dropEndWhile_eq_nil_iff]
        exact fun blanks => allBlank (List.forall_mem_cons.mpr ⟨rfl, blanks⟩)
      rw [List.append_cons, trimEnd, dropEndWhile_append_of_ne_nil left, List.append_assoc]
      exact opensWith_opening (.inr ⟨_, rfl⟩)

/-- A generated comment starts with a slash behind its blanks. -/
theorem head?_of_isGenerated {text : Text} (generated : isGenerated text = true) :
    (skipBlanks text).head? = some '/' := by
  obtain ⟨verb, -, opens⟩ := List.any_eq_true.mp generated
  unfold opensWith at opens
  have slash : ∃ rest, trim text = '/' :: rest := by
    cases found : after? (opening verb) (trim text) with
    | none =>
      rw [found] at opens
      cases opens
    | some rest => exact ⟨_, after?_eq_some_iff.mp found⟩
  obtain ⟨rest, shape⟩ := slash
  obtain ⟨back, whole⟩ := dropEndWhile_prefix (p := isBlank) (text.dropWhile isBlank)
  have trimmed : dropEndWhile isBlank (text.dropWhile isBlank) = '/' :: rest := shape
  rw [skipBlanks, whole, trimmed]
  rfl

/-- The lines of a comment: its opening with the first line of the URL, and the other lines of the URL. -/
theorem pieces_comment {indent : Text} {endpoint : Endpoint} (unbroken : '\n' ∉ indent)
    (known : endpoint.verb ∈ Mapping.verbs) :
    ∃ rest, (rest = [] ∨ ∃ more, rest = ' ' :: more) ∧
      pieces '\n' (endpoint.comment indent) =
        (indent ++ opening endpoint.verb ++ rest) :: (pieces '\n' (trimEnd endpoint.url)).tail := by
  have solid := opening_solid endpoint.verb known
  have filled : trimEnd (opening endpoint.verb) ≠ [] := by
    rw [solid]
    exact List.cons_ne_nil _ _
  have startUnbroken : '\n' ∉ indent ++ opening endpoint.verb := by
    rw [List.mem_append]
    exact fun found => found.elim unbroken (opening_unbroken endpoint.verb known)
  have shape : endpoint.comment indent = trimEnd ((indent ++ opening endpoint.verb) ++ ' ' :: endpoint.url) := by
    simp only [Endpoint.comment, opening, List.append_assoc]
  by_cases blank : trimEnd endpoint.url = []
  · refine ⟨[], .inl rfl, ?_⟩
    have allBlank : ∀ c ∈ ' ' :: endpoint.url, isBlank c = true :=
      List.forall_mem_cons.mpr ⟨rfl, dropEndWhile_eq_nil_iff.mp blank⟩
    rw [shape, trimEnd, dropEndWhile_append_of_all allBlank, dropEndWhile_append_of_ne_nil filled, ← trimEnd,
      solid, pieces_eq_singleton startUnbroken, blank, List.append_nil]
    rfl
  · obtain ⟨first, others, parts⟩ := List.exists_cons_of_ne_nil (pieces_ne_nil '\n' (trimEnd endpoint.url))
    refine ⟨' ' :: first, .inr ⟨first, rfl⟩, ?_⟩
    rw [shape, List.append_cons, trimEnd, dropEndWhile_append_of_ne_nil blank, ← trimEnd]
    have spaced : '\n' ∉ indent ++ opening endpoint.verb ++ [' '] := by
      rw [List.mem_append]
      exact fun found => found.elim startUnbroken (by decide)
    rw [pieces_append_of_not_mem spaced parts, parts]
    simp only [List.append_assoc, List.singleton_append, List.tail_cons]

/-- The lines of a comment are recognised exactly when the lines of the URL behind the first are. -/
theorem lines_generated_iff {indent : Text} {endpoint : Endpoint} (blank : ∀ c ∈ indent, isBlank c = true)
    (unbroken : '\n' ∉ indent) (known : endpoint.verb ∈ Mapping.verbs) :
    (∀ piece ∈ pieces '\n' (endpoint.comment indent), isGenerated piece = true) ↔
      ∀ piece ∈ (pieces '\n' (trimEnd endpoint.url)).tail, isGenerated piece = true := by
  obtain ⟨rest, spaced, shape⟩ := pieces_comment unbroken known
  rw [shape, List.forall_mem_cons]
  exact ⟨fun all => all.2, fun others => ⟨isGenerated_of_opening blank known spaced, others⟩⟩

/-- A comment on one line is its opening behind the indentation, with a space before what follows. -/
theorem comment_eq {indent : Text} {endpoint : Endpoint} (known : endpoint.verb ∈ Mapping.verbs)
    (unbroken : '\n' ∉ endpoint.comment indent) (indentUnbroken : '\n' ∉ indent) :
    ∃ rest, (rest = [] ∨ ∃ more, rest = ' ' :: more) ∧
      endpoint.comment indent = indent ++ opening endpoint.verb ++ rest := by
  obtain ⟨rest, spaced, shape⟩ := pieces_comment indentUnbroken known
  rw [pieces_eq_singleton unbroken, List.cons.injEq] at shape
  exact ⟨rest, spaced, shape.1⟩

/-- A comment on one line is recognised. -/
theorem isGenerated_comment {indent : Text} {endpoint : Endpoint} (blank : ∀ c ∈ indent, isBlank c = true)
    (known : endpoint.verb ∈ Mapping.verbs) (unbroken : '\n' ∉ endpoint.comment indent)
    (indentUnbroken : '\n' ∉ indent) : isGenerated (endpoint.comment indent) = true := by
  obtain ⟨rest, spaced, shape⟩ := comment_eq known unbroken indentUnbroken
  rw [shape]
  exact isGenerated_of_opening blank known spaced

end Comment

namespace Url

theorem singleSlashes_subset (url : Text) : singleSlashes url ⊆ url := by
  induction url with
  | nil => exact fun c member => member
  | cons c cs ih =>
    rw [singleSlashes]
    split
    · exact fun d member => List.mem_cons_of_mem _ (ih member)
    · exact List.cons_subset_cons _ ih

theorem suffix_of_scheme? {url rest : Text} (found : scheme? url = some rest) : rest <:+ url := by
  unfold scheme? at found
  split at found
  · split at found
    · exact (suffix_of_after? found).trans ((List.dropWhile_suffix _).trans (List.suffix_cons _ _))
    · cases found
  · cases found

theorem collapseSlashes_subset (url : Text) : collapseSlashes url ⊆ url := by
  intro c member
  unfold collapseSlashes at member
  split at member
  · rename_i rest found
    rcases List.mem_append.mp member with front | back
    · exact List.mem_of_mem_take front
    · exact (suffix_of_scheme? found).subset (singleSlashes_subset rest back)
  · exact singleSlashes_subset url member

theorem typedEnd_unbroken (tag : TypeTag) : '\n' ∉ typedEnd tag := by
  cases tag <;> decide

theorem placeholder?_spec {text name rest : Text} (found : placeholder? text = some (name, rest)) :
    (∀ c ∈ name, c ∈ text) ∧ rest <:+ text := by
  unfold placeholder? at found
  split at found
  · rename_i inner
    split at found
    · split at found
      · rename_i behind closed
        cases found
        refine ⟨fun c member => List.mem_cons_of_mem _ (List.takeWhile_subset _ member), ?_⟩
        have below : '}' :: rest <:+ inner := closed ▸ List.dropWhile_suffix isWord
        exact (List.suffix_cons _ _).trans (below.trans (List.suffix_cons _ _))
      · cases found
    · cases found
  · cases found

theorem typePlaceholders_unbroken {typeOf : Text → TypeTag} {path : Text} (unbroken : '\n' ∉ path) :
    '\n' ∉ typePlaceholders typeOf path := by
  fun_induction typePlaceholders typeOf path with
  | case1 path name rest found ih =>
    obtain ⟨inside, suffix⟩ := placeholder?_spec found
    simp only [List.cons_append, List.mem_cons, List.mem_append, not_or]
    exact ⟨by decide, ⟨fun member => unbroken (inside _ member), typedEnd_unbroken _⟩,
      ih fun member => unbroken (suffix.subset member)⟩
  | case2 => exact List.not_mem_nil
  | case3 c cs _ ih =>
    obtain ⟨different, others⟩ := List.ne_and_not_mem_of_not_mem_cons unbroken
    rw [List.mem_cons, not_or]
    exact ⟨different, ih others⟩

theorem queryPair_unbroken {parameter : QueryParameter} (unbroken : '\n' ∉ parameter.name) :
    '\n' ∉ queryPair parameter := by
  rw [queryPair, List.mem_append, List.mem_cons, not_or, not_or]
  refine ⟨unbroken, by decide, ?_⟩
  cases TypeTag.ofName parameter.declaredType <;> decide

/-- A URL runs over one line when its base, its paths and the names of its query parameters do. -/
theorem compose_unbroken {baseUrl basePath path : Text} {parameters : Parameters} (base : '\n' ∉ baseUrl)
    (classPath : '\n' ∉ basePath) (methodPath : '\n' ∉ path)
    (names : ∀ parameter ∈ parameters.queryParameters, '\n' ∉ parameter.name) :
    '\n' ∉ compose baseUrl basePath path parameters := by
  have query : '\n' ∉ queryString parameters := by
    apply not_mem_joinWith (by decide)
    intro pair member
    obtain ⟨parameter, sorted, rfl⟩ := List.mem_map.mp member
    exact queryPair_unbroken (names parameter (List.mem_mergeSort.mp sorted))
  have joined : '\n' ∉ joinWith ['/'] (dropEndWhile (· == '/') baseUrl ::
      [dropSlashes basePath, dropSlashes (typedPath parameters path)].filter (!·.isEmpty)) := by
    apply not_mem_joinWith (by decide)
    intro segment member
    rcases List.mem_cons.mp member with rfl | member
    · rwa [mem_dropEndWhile_iff (by decide)]
    · have among := (List.mem_filter.mp member).1
      simp only [List.mem_cons, List.not_mem_nil, or_false] at among
      rcases among with rfl | rfl
      · exact fun found => classPath ((List.dropWhile_suffix _).subset found)
      · exact fun found => typePlaceholders_unbroken methodPath ((List.dropWhile_suffix _).subset found)
  intro found
  have inside := collapseSlashes_subset _ found
  split at inside
  · exact joined inside
  · rcases List.mem_append.mp inside with inside | inside
    · exact joined inside
    · exact (List.mem_cons.mp inside).elim (by decide) query

end Url

namespace Plan

open Comment Binding

/-- A plan that writes only lines that are recognised as generated comments. -/
def WritesGenerated (plan : Plan) : Prop :=
  ∀ line text, Operation.insert line text ∈ plan.orderedOperations →
    ∀ piece ∈ pieces '\n' text, isGenerated piece = true

/-- The lines that a plan writes are the lines of its comments. -/
theorem writesGenerated_iff_comments (plan : Plan) :
    WritesGenerated plan ↔
      ∀ block ∈ plan, ∀ comment ∈ block.comments, ∀ piece ∈ pieces '\n' comment, isGenerated piece = true := by
  constructor
  · intro written block blockMember comment commentMember piece pieceMember
    have here : comment ∈ plan.commentsAt block.line := mem_commentsAt.mpr ⟨block, blockMember, rfl, commentMember⟩
    have filled : plan.commentsAt block.line ≠ [] := List.ne_nil_of_mem here
    refine written block.line _ ((Operation.order_perm _).mem_iff.mpr (mem_operations.mpr (.inr ⟨_, filled, rfl⟩)))
      piece ?_
    rw [pieces_joinWith '\n' filled]
    exact List.mem_flatMap.mpr ⟨comment, here, pieceMember⟩
  · intro generated line text operation piece pieceMember
    rcases mem_operations.mp ((Operation.order_perm _).mem_iff.mp operation) with ⟨_, _, same⟩ | ⟨_, filled, same⟩
    · cases same
    · cases same
      rw [pieces_joinWith '\n' filled] at pieceMember
      obtain ⟨comment, commentMember, inside⟩ := List.mem_flatMap.mp pieceMember
      obtain ⟨block, blockMember, _, planned⟩ := mem_commentsAt.mp commentMember
      exact generated block blockMember comment planned piece inside

section Planned

variable {doc : Document} {baseUrl : Text} {block : Block}

theorem indent_blank (planned : block ∈ ofDocument doc baseUrl) : ∀ c ∈ block.indent, isBlank c = true := by
  obtain ⟨occurrence, _, rfl⟩ := mem_ofDocument.mp planned
  exact fun c member => List.mem_takeWhile_imp member

theorem indent_unbroken (planned : block ∈ ofDocument doc baseUrl) : '\n' ∉ block.indent := by
  obtain ⟨occurrence, _, rfl⟩ := mem_ofDocument.mp planned
  intro member
  have inLine := List.takeWhile_subset _ member
  cases found : doc.lineTexts[doc.lineOfOffset occurrence.offset]? with
  | none =>
    rw [found] at inLine
    exact List.not_mem_nil inLine
  | some text =>
    rw [found] at inLine
    obtain ⟨line, lineMember, rfl⟩ := List.mem_map.mp (List.mem_of_getElem? found)
    exact Line.not_mem_of_mem_read lineMember inLine

theorem verb_known (planned : block ∈ ofDocument doc baseUrl) :
    ∀ endpoint ∈ block.endpoints, endpoint.verb ∈ Mapping.verbs := by
  obtain ⟨occurrence, _, rfl⟩ := mem_ofDocument.mp planned
  intro endpoint member
  obtain ⟨verb, verbMember, pathMember⟩ := List.mem_flatMap.mp member
  obtain ⟨path, _, rfl⟩ := List.mem_map.mp pathMember
  exact Mapping.mem_verbs_of_mem_occurrence verbMember

theorem isGenerated_of_unbroken (planned : block ∈ ofDocument doc baseUrl) {comment : Text}
    (member : comment ∈ block.comments) (unbroken : '\n' ∉ comment) : isGenerated comment = true := by
  obtain ⟨endpoint, endpointMember, rfl⟩ := List.mem_map.mp member
  exact isGenerated_comment (indent_blank planned) (verb_known planned endpoint endpointMember) unbroken
    (indent_unbroken planned)

theorem comments_generated_iff (planned : block ∈ ofDocument doc baseUrl) :
    (∀ comment ∈ block.comments, ∀ piece ∈ pieces '\n' comment, isGenerated piece = true) ↔
      ∀ endpoint ∈ block.endpoints, ∀ piece ∈ (pieces '\n' (trimEnd endpoint.url)).tail, isGenerated piece = true := by
  simp only [Block.comments, List.forall_mem_map]
  refine forall₂_congr fun endpoint member => ?_
  exact lines_generated_iff (indent_blank planned) (indent_unbroken planned) (verb_known planned endpoint member)

theorem classBasePath_unbroken {text : Text}
    (arguments : ∀ occurrence ∈ Mapping.mappings text, '\n' ∉ occurrence.args) :
    '\n' ∉ Mapping.classBasePath text := by
  unfold Mapping.classBasePath
  simp only
  split
  · rename_i occurrence last
    have member := (List.mem_filter.mp (List.mem_of_getLast? last)).1
    obtain ⟨first, others, paths⟩ := List.exists_cons_of_ne_nil (Mapping.extractPaths_ne_nil occurrence.args)
    have head : occurrence.paths.headD [] = first := by rw [Mapping.Occurrence.paths, paths]; rfl
    rw [head]
    exact fun found => arguments occurrence member
      (Mapping.mem_of_mem_extractPaths (paths ▸ List.mem_cons_self) _ found)
  · exact List.not_mem_nil

theorem name_unbroken {signature : Text}
    (arguments : ∀ declared ∈ allMatches (parameter? "RequestParam".toList) signature,
      '\n' ∉ declared.args.getD []) :
    ∀ parameter ∈ (Parameters.ofSignature signature).queryParameters, '\n' ∉ parameter.name := by
  intro parameter member
  obtain ⟨declared, declaredMember, same⟩ := Parameters.exists_declared_of_mem_queryParameters member
  rw [same, Declared.name]
  cases given : declared.args.bind alias? with
  | none =>
    obtain ⟨back, rest, read⟩ := exists_read_of_mem_allMatches declaredMember
    exact fun found => absurd (word_of_parameter? read _ found) (by decide)
  | some name =>
    obtain ⟨args, present, aliased⟩ := Option.bind_eq_some_iff.mp given
    have free := arguments declared declaredMember
    rw [present] at free
    exact fun found => free (mem_of_alias? aliased _ found)

/-- The URLs of a block run over one line when no arguments that they are made of run over a line break. -/
theorem url_unbroken (planned : block ∈ ofDocument doc baseUrl) (unbroken : '\n' ∉ baseUrl)
    (mappings : ∀ occurrence ∈ Mapping.mappings doc.text, '\n' ∉ occurrence.args)
    (parameters : ∀ declared ∈ allMatches (parameter? "RequestParam".toList) (Signature.span doc.lineTexts block.line),
      '\n' ∉ declared.args.getD []) :
    ∀ endpoint ∈ block.endpoints, '\n' ∉ endpoint.url := by
  obtain ⟨occurrence, occurrenceMember, rfl⟩ := mem_ofDocument.mp planned
  intro endpoint member
  obtain ⟨verb, _, verbMember⟩ := List.mem_flatMap.mp member
  obtain ⟨path, pathMember, rfl⟩ := List.mem_map.mp verbMember
  have given := mappings occurrence (List.mem_filter.mp occurrenceMember).1
  apply Url.compose_unbroken unbroken (classBasePath_unbroken mappings) _ (name_unbroken parameters)
  exact fun found => given (Mapping.mem_of_mem_extractPaths pathMember _ found)

end Planned

/-- Every written line is recognised exactly when the lines of each URL behind its first are. That is so when no
arguments of a mapping or of a query parameter run over a line break. -/
theorem writesGenerated_iff (doc : Document) (baseUrl : Text) (unbroken : '\n' ∉ baseUrl) :
    (WritesGenerated (ofDocument doc baseUrl) ↔
      ∀ block ∈ ofDocument doc baseUrl, ∀ endpoint ∈ block.endpoints,
        ∀ piece ∈ (pieces '\n' (trimEnd endpoint.url)).tail, isGenerated piece = true) ∧
    ((∀ occurrence ∈ Mapping.mappings doc.text, '\n' ∉ occurrence.args) →
      (∀ block ∈ ofDocument doc baseUrl,
        ∀ declared ∈ allMatches (parameter? "RequestParam".toList) (Signature.span doc.lineTexts block.line),
          '\n' ∉ declared.args.getD []) →
      WritesGenerated (ofDocument doc baseUrl)) := by
  have exact : WritesGenerated (ofDocument doc baseUrl) ↔
      ∀ block ∈ ofDocument doc baseUrl, ∀ endpoint ∈ block.endpoints,
        ∀ piece ∈ (pieces '\n' (trimEnd endpoint.url)).tail, isGenerated piece = true := by
    rw [writesGenerated_iff_comments]
    exact forall₂_congr fun block planned => comments_generated_iff planned
  refine ⟨exact, ?_⟩
  intro mappings parameters
  rw [exact]
  intro block planned endpoint member piece pieceMember
  have whole := url_unbroken planned unbroken mappings (parameters block planned) endpoint member
  have trimmed : '\n' ∉ trimEnd endpoint.url := by
    obtain ⟨back, shape⟩ := dropEndWhile_prefix (p := isBlank) endpoint.url
    exact fun found => whole (shape ▸ List.mem_append_left _ found)
  rw [pieces_eq_singleton trimmed] at pieceMember
  exact absurd pieceMember List.not_mem_nil

/-- A mapping with a path variable and a query parameter, all on one line each. -/
def plainPath : Document where
  path := Path.ofText "A.java".toList
  text := joinWith ['\n'] ["class A \x7b".toList, "    @GetMapping(\"/a/\x7bid\x7d\")".toList,
    "    public void f(@PathVariable Long id,".toList, "        @RequestParam(\"q\") String q) \x7b\x7d".toList,
    "\x7d".toList]

theorem plainPath_writes_generated :
    '\n' ∉ "https://localhost:8080".toList ∧
      WritesGenerated (ofDocument plainPath "https://localhost:8080".toList) :=
  ⟨by decide, (writesGenerated_iff plainPath "https://localhost:8080".toList (by decide)).2
    (by decide +kernel) (by decide +kernel)⟩

/-- A list whose only element is a concatenation over two lines. -/
def concatenatedPath : Document where
  path := Path.ofText "A.java".toList
  text := joinWith ['\n'] ["class A \x7b".toList, "    @GetMapping(\x7b\"/a\" +".toList, "        \"/b\"\x7d)".toList,
    "    public void f() \x7b\x7d".toList, "\x7d".toList, []]

theorem concatenatedPath_writes_bare_line :
    '\n' ∉ "https://localhost:8080".toList ∧
      ∃ line text piece, Operation.insert line text ∈
        (ofDocument concatenatedPath "https://localhost:8080".toList).orderedOperations ∧
          piece ∈ pieces '\n' text ∧ isGenerated piece = false := by
  refine ⟨by decide, 1, "    // GET https://localhost:8080/a\" +\n        \"/b".toList, "        \"/b".toList, ?_⟩
  decide +kernel

end Plan

end RouteComments
