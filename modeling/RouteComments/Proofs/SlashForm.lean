import RouteComments.Proofs.GeneratedComments
import RouteComments.Proofs.Searches

set_option autoImplicit false

namespace RouteComments.Url

open Text

/-- The part of a URL behind its scheme, or all of it if there is none. -/
def behindScheme (url : Text) : Text :=
  (scheme? url).getD url

/-- A text without two slashes in a row. -/
def SingleSlashed (text : Text) : Prop :=
  ¬ ['/', '/'] <:+: text

instance (text : Text) : Decidable (SingleSlashed text) :=
  inferInstanceAs (Decidable (¬ ['/', '/'] <:+: text))

section Runs

theorem singleSlashed_cons {c : Char} {text : Text} :
    SingleSlashed (c :: text) ↔ ¬ (c = '/' ∧ text.head? = some '/') ∧ SingleSlashed text := by
  have starts : ['/', '/'] <+: c :: text ↔ c = '/' ∧ text.head? = some '/' := by
    rw [List.cons_prefix_cons, eq_comm]
    cases text with
    | nil => simp
    | cons d rest => simp [List.cons_prefix_cons, eq_comm]
  rw [SingleSlashed, List.infix_cons_iff, not_or, starts, SingleSlashed]

theorem head?_singleSlashes (text : Text) : (singleSlashes text).head? = text.head? := by
  induction text with
  | nil => rfl
  | cons c cs ih =>
    rw [singleSlashes]
    split
    · rename_i run
      rw [ih, run.1, run.2]
      rfl
    · rfl

theorem singleSlashed_singleSlashes (text : Text) : SingleSlashed (singleSlashes text) := by
  induction text with
  | nil => decide
  | cons c cs ih =>
    rw [singleSlashes]
    split
    · exact ih
    · rename_i single
      rw [singleSlashed_cons, head?_singleSlashes]
      exact ⟨single, ih⟩

theorem singleSlashes_eq_self {text : Text} (single : SingleSlashed text) : singleSlashes text = text := by
  induction text with
  | nil => rfl
  | cons c cs ih =>
    obtain ⟨apart, behind⟩ := singleSlashed_cons.mp single
    rw [singleSlashes, if_neg apart, ih behind]

theorem singleSlashes_replicate (count : Nat) (back : Text) :
    singleSlashes (List.replicate count '/' ++ '/' :: back) = singleSlashes ('/' :: back) := by
  induction count with
  | zero => rfl
  | succ count ih =>
    have goesOn : (List.replicate count '/' ++ '/' :: back).head? = some '/' := by
      cases count <;> rfl
    rw [List.replicate_succ, List.cons_append, singleSlashes, if_pos ⟨rfl, goesOn⟩, ih]

/-- More slashes in front of a slash make no difference, whatever stands before them. -/
theorem singleSlashes_joint (front : Text) (count : Nat) (back : Text) :
    singleSlashes (front ++ (List.replicate count '/' ++ '/' :: back)) = singleSlashes (front ++ '/' :: back) := by
  induction front with
  | nil => exact singleSlashes_replicate count back
  | cons c cs ih =>
    have sameHead : (cs ++ (List.replicate count '/' ++ '/' :: back)).head? = (cs ++ '/' :: back).head? := by
      cases cs with
      | nil => cases count <;> rfl
      | cons d ds => rfl
    rw [List.cons_append, List.cons_append, singleSlashes, singleSlashes, sameHead, ih]

end Runs

section Schemes

/-- A scheme is a letter, further characters of its class, and `://`. -/
theorem scheme?_eq_some_iff {url rest : Text} :
    scheme? url = some rest ↔ ∃ letter name, letter.isAlpha = true ∧ (∀ c ∈ name, inScheme c = true) ∧
      url = letter :: (name ++ ("://".toList ++ rest)) := by
  constructor
  · intro found
    unfold scheme? at found
    split at found
    · rename_i letter behind
      split at found
      · rename_i alpha
        refine ⟨letter, behind.takeWhile inScheme, alpha, fun c member => List.mem_takeWhile_imp member, ?_⟩
        rw [← after?_eq_some_iff.mp found, List.takeWhile_append_dropWhile]
      · cases found
    · cases found
  · rintro ⟨letter, name, alpha, inside, rfl⟩
    have stops : inScheme ':' = false := by decide
    have behind : (name ++ ("://".toList ++ rest)).dropWhile inScheme = "://".toList ++ rest :=
      dropWhile_append_cons inside stops ("//".toList ++ rest)
    rw [scheme?, if_pos alpha, behind]
    exact after?_eq_some_iff.mpr rfl

/-- A URL with single slashes has no scheme. -/
theorem scheme?_of_singleSlashed {url : Text} (single : SingleSlashed url) : scheme? url = none := by
  rw [Option.eq_none_iff_forall_ne_some]
  intro rest found
  obtain ⟨letter, name, -, -, rfl⟩ := scheme?_eq_some_iff.mp found
  exact single ⟨letter :: (name ++ [':']), rest, by simp⟩

theorem collapseSlashes_of_scheme {front rest : Text} (found : scheme? (front ++ rest) = some rest) :
    collapseSlashes (front ++ rest) = front ++ singleSlashes rest := by
  rw [collapseSlashes, found]
  simp only [upTo_append]

theorem collapseSlashes_of_none {url : Text} (absent : scheme? url = none) :
    collapseSlashes url = singleSlashes url := by
  rw [collapseSlashes, absent]

/-- The scheme stays, and the part behind it gets single slashes. -/
theorem behindScheme_collapseSlashes (url : Text) :
    behindScheme (collapseSlashes url) = singleSlashes (behindScheme url) := by
  cases found : scheme? url with
  | none =>
    have single := singleSlashed_singleSlashes url
    rw [collapseSlashes_of_none found, behindScheme, scheme?_of_singleSlashed single, behindScheme, found]
    rfl
  | some rest =>
    obtain ⟨letter, name, alpha, inside, shape⟩ := scheme?_eq_some_iff.mp found
    have split : url = letter :: (name ++ "://".toList) ++ rest := by
      rw [shape, List.cons_append, List.append_assoc]
    rw [split] at found ⊢
    have kept : scheme? (letter :: (name ++ "://".toList) ++ singleSlashes rest) = some (singleSlashes rest) := by
      rw [scheme?_eq_some_iff]
      exact ⟨letter, name, alpha, inside, by rw [List.cons_append, List.append_assoc]⟩
    rw [collapseSlashes_of_scheme found, behindScheme, kept, behindScheme, found]
    rfl

/-- Putting single slashes changes nothing exactly where there are only single ones behind the scheme. -/
theorem collapseSlashes_eq_self_iff {url : Text} : collapseSlashes url = url ↔ SingleSlashed (behindScheme url) := by
  constructor
  · intro same
    rw [← same, behindScheme_collapseSlashes]
    exact singleSlashed_singleSlashes _
  · intro single
    cases found : scheme? url with
    | none =>
      rw [behindScheme, found, Option.getD_none] at single
      rw [collapseSlashes_of_none found, singleSlashes_eq_self single]
    | some rest =>
      rw [behindScheme, found, Option.getD_some] at single
      obtain ⟨front, rfl⟩ := suffix_of_scheme? found
      rw [collapseSlashes_of_scheme found, singleSlashes_eq_self single]

theorem singleSlashed_collapseSlashes (url : Text) : SingleSlashed (behindScheme (collapseSlashes url)) := by
  rw [behindScheme_collapseSlashes]
  exact singleSlashed_singleSlashes _

end Schemes

section Joints

variable {base path : Text}

/-- A joint makes no scheme: what stands before it has to hold all of `://`. -/
theorem scheme?_append_joint (closed : base.getLast? ≠ some '/') (opened : path.head? ≠ some '/') :
    scheme? (base ++ '/' :: path) = (scheme? base).map (· ++ '/' :: path) := by
  have stops : inScheme '/' = false := by decide
  cases base with
  | nil => rfl
  | cons letter name =>
    have behind := dropWhile_append_stop stops name path
    have lastKept : name.dropWhile inScheme ≠ [] →
        (name.dropWhile inScheme).getLast? = (letter :: name).getLast? := by
      intro filled
      obtain ⟨front, shape⟩ := (List.dropWhile_suffix (l := name) inScheme).trans (List.suffix_cons letter name)
      rw [← shape, List.getLast?_append_of_ne_nil _ filled]
    rw [List.cons_append, scheme?, scheme?, behind]
    split
    · generalize name.dropWhile inScheme = left at lastKept
      match left with
      | [] => rfl
      | [c] =>
        -- the slash of the joint cannot be the first of two
        cases path with
        | nil => simp [after?]
        | cons d rest =>
          have different : '/' ≠ d := fun same => opened (same ▸ rfl)
          simp [after?, different]
      | [c, d] =>
        -- nor can it be the second of two
        have different : '/' ≠ d := by
          intro same
          apply closed
          rw [← lastKept (List.cons_ne_nil _ _), same]
          rfl
        simp [after?, different]
      | c :: d :: e :: rest => exact after?_append_of_le (by simp) _
    · rfl

/-- Slashes at the end of a part between two others make no difference. -/
theorem collapseSlashes_joint {segment : Text} (closed : base.getLast? ≠ some '/') (filled : segment ≠ [])
    (opened : segment.head? ≠ some '/') (count : Nat) (back : Text) :
    collapseSlashes (base ++ '/' :: (segment ++ (List.replicate count '/' ++ '/' :: back))) =
      collapseSlashes (base ++ '/' :: (segment ++ '/' :: back)) := by
  have openedBefore : ∀ rest, (segment ++ rest).head? ≠ some '/' := by
    intro rest
    rwa [List.head?_append_of_ne_nil _ filled]
  have many := scheme?_append_joint closed (openedBefore (List.replicate count '/' ++ '/' :: back))
  have one := scheme?_append_joint closed (openedBefore ('/' :: back))
  cases found : scheme? base with
  | none =>
    rw [found] at many one
    rw [collapseSlashes_of_none many, collapseSlashes_of_none one]
    have joint := singleSlashes_joint (base ++ '/' :: segment) count back
    simpa only [List.append_assoc, List.cons_append] using joint
  | some rest =>
    rw [found] at many one
    obtain ⟨front, rfl⟩ := suffix_of_scheme? found
    have joint := singleSlashes_joint (rest ++ '/' :: segment) count back
    rw [List.append_assoc] at many one ⊢
    rw [List.append_assoc, collapseSlashes_of_scheme many, collapseSlashes_of_scheme one]
    congr 1
    simpa only [List.append_assoc, List.cons_append] using joint

end Joints

section Segments

theorem forall_mem_replicate_slash (count : Nat) : ∀ c ∈ List.replicate count '/', (c == '/') = true := by
  intro c member
  rw [List.eq_of_mem_replicate member]
  rfl

theorem dropSlashes_replicate (count : Nat) (path : Text) :
    dropSlashes (List.replicate count '/' ++ path) = dropSlashes path :=
  List.dropWhile_append_of_pos (forall_mem_replicate_slash count)

theorem dropSlashes_append_replicate (path : Text) (count : Nat) :
    dropSlashes (path ++ List.replicate count '/') =
      if dropSlashes path = [] then [] else dropSlashes path ++ List.replicate count '/' := by
  have gone : (List.replicate count '/').dropWhile (· == '/') = [] :=
    List.dropWhile_eq_nil_iff.mpr (forall_mem_replicate_slash count)
  rw [dropSlashes, List.dropWhile_append, gone, ← dropSlashes]
  by_cases empty : dropSlashes path = []
  · simp [empty]
  · simp [empty]

theorem head?_dropSlashes (path : Text) : (dropSlashes path).head? ≠ some '/' := by
  intro slash
  exact absurd (stops_of_head?_dropWhile slash) (by decide)

theorem typePlaceholders_cons {c : Char} (different : c ≠ '{') (typeOf : Text → TypeTag) (path : Text) :
    typePlaceholders typeOf (c :: path) = c :: typePlaceholders typeOf path := by
  have fails : placeholder? (c :: path) = none := by
    unfold placeholder?
    split
    · rename_i same
      cases same
      exact absurd rfl different
    · rfl
  rw [typePlaceholders]
  split
  · rename_i found
    rw [fails] at found
    cases found
  · rfl

/-- Text without an opening brace is passed over. -/
theorem typePlaceholders_append {front : Text} (unopened : '{' ∉ front) (typeOf : Text → TypeTag) (back : Text) :
    typePlaceholders typeOf (front ++ back) = front ++ typePlaceholders typeOf back := by
  induction front with
  | nil => rfl
  | cons c cs ih =>
    obtain ⟨different, others⟩ := List.ne_and_not_mem_of_not_mem_cons unopened
    rw [List.cons_append, typePlaceholders_cons different.symm, ih others]
    rfl

theorem typedPath_replicate (parameters : Parameters) (count : Nat) (path : Text) :
    typedPath parameters (List.replicate count '/' ++ path) =
      List.replicate count '/' ++ typedPath parameters path := by
  refine typePlaceholders_append (fun member => ?_) _ _
  exact absurd (List.eq_of_mem_replicate member) (by decide)

/-- Typed placeholders leave a path with something else than slashes. -/
theorem dropSlashes_typedPath_ne_nil {parameters : Parameters} {path : Text} (solid : ∃ c ∈ path, c ≠ '/') :
    dropSlashes (typedPath parameters path) ≠ [] := by
  intro gone
  have slashes : ∀ c ∈ typedPath parameters path, c = '/' := by
    intro c member
    simpa using List.dropWhile_eq_nil_iff.mp gone c member
  obtain ⟨c, member, different⟩ := solid
  apply different
  clear different gone
  unfold typedPath at slashes
  generalize placeholderType parameters = typeOf at slashes
  fun_induction typePlaceholders typeOf path with
  | case1 path name rest found ih => exact absurd (slashes '{' (by simp)) (by decide)
  | case2 => exact absurd member List.not_mem_nil
  | case3 d ds fails ih =>
    obtain ⟨first, others⟩ := List.forall_mem_cons.mp slashes
    rcases List.mem_cons.mp member with rfl | member
    · exact first
    · exact ih member others

end Segments

/-- A URL before its slashes are put right: the parts that are not empty with a slash between neighbours, and the
query. -/
def joined (base basePath methodPath query : Text) : Text :=
  joinWith ['/'] (base :: [basePath, methodPath].filter (!·.isEmpty)) ++ if query.isEmpty then [] else '?' :: query

theorem compose_eq (baseUrl basePath methodPath : Text) (parameters : Parameters) :
    compose baseUrl basePath methodPath parameters =
      collapseSlashes (joined (dropEndWhile (· == '/') baseUrl) (dropSlashes basePath)
        (dropSlashes (typedPath parameters methodPath)) (queryString parameters)) := by
  unfold compose joined
  dsimp only
  split
  · rw [List.append_nil]
  · rfl

theorem collapseSlashes_joined {base basePath methodPath : Text} (closed : base.getLast? ≠ some '/')
    (filled : basePath ≠ []) (opened : basePath.head? ≠ some '/') (solid : methodPath ≠ []) (query : Text)
    (count : Nat) :
    collapseSlashes (joined base (basePath ++ List.replicate count '/') methodPath query) =
      collapseSlashes (joined base basePath methodPath query) := by
  have joint := collapseSlashes_joint closed filled opened count
    (methodPath ++ if query.isEmpty then [] else '?' :: query)
  simpa [joined, joinWith, filled, solid] using joint

/-- A composed URL is in canonical slash form: single slashes behind its scheme, which a second pass leaves alone. It
does not depend on slashes behind the base URL or before the paths, nor on slashes behind the base path where the
method path has something to join. -/
theorem compose_canonical_slashes (baseUrl basePath methodPath : Text) (parameters : Parameters) :
    let url := compose baseUrl basePath methodPath parameters
    collapseSlashes url = url ∧ SingleSlashed (behindScheme url) ∧ ∀ count,
      let slashes := List.replicate count '/'
      compose (baseUrl ++ slashes) basePath methodPath parameters = url ∧
        compose baseUrl (slashes ++ basePath) methodPath parameters = url ∧
        compose baseUrl basePath (slashes ++ methodPath) parameters = url ∧
        ((∃ c ∈ methodPath, c ≠ '/') → compose baseUrl (basePath ++ slashes) methodPath parameters = url) := by
  intro url
  have single : SingleSlashed (behindScheme url) := singleSlashed_collapseSlashes _
  refine ⟨collapseSlashes_eq_self_iff.mpr single, single, fun count => ⟨?_, ?_, ?_, ?_⟩⟩
  · rw [compose_eq, dropEndWhile_append_of_all (forall_mem_replicate_slash count), ← compose_eq]
  · rw [compose_eq, dropSlashes_replicate, ← compose_eq]
  · rw [compose_eq, typedPath_replicate, dropSlashes_replicate, ← compose_eq]
  · intro solid
    rw [compose_eq, dropSlashes_append_replicate]
    split
    · rename_i empty
      rw [← empty, ← compose_eq]
    · rename_i filled
      have closed : (dropEndWhile (· == '/') baseUrl).getLast? ≠ some '/' := by
        intro slash
        exact absurd (getLast?_dropEndWhile slash) (by decide)
      rw [collapseSlashes_joined closed filled (head?_dropSlashes basePath) (dropSlashes_typedPath_ne_nil solid),
        ← compose_eq]

/-- Slashes behind the base path, before a method path of one placeholder and behind a bare scheme. -/
theorem bareScheme_canonical_slashes :
    (∃ c ∈ "/\x7bid\x7d".toList, c ≠ '/') ∧
      compose "http://".toList ("api".toList ++ List.replicate 2 '/') "/\x7bid\x7d".toList .empty =
        "http:/api/\x7bid:string\x7d".toList := by
  have solid : ∃ c ∈ "/\x7bid\x7d".toList, c ≠ '/' := ⟨'i', by decide, by decide⟩
  refine ⟨solid, ?_⟩
  rw [((compose_canonical_slashes "http://".toList "api".toList "/\x7bid\x7d".toList .empty).2.2 2).2.2.2 solid]
  decide +kernel

end RouteComments.Url
