import RouteComments.Mapping.Scan
import RouteComments.Parameter.Binding
import RouteComments.Proofs.Texts

set_option autoImplicit false

namespace RouteComments

open Text

namespace Text

theorem suffix_of_after? {word text rest : Text} (found : after? word text = some rest) : rest <:+ text := by
  rw [after?_eq_some_iff.mp found]
  exact List.suffix_append word rest

theorem suffix_of_wholeWord? {word text rest : Text} (found : wholeWord? word text = some rest) : rest <:+ text := by
  unfold wholeWord? at found
  split at found
  · rename_i behind success
    split at found
    · cases found
    · cases found
      exact suffix_of_after? success
  · cases found

theorem skipBlanks_suffix (text : Text) : skipBlanks text <:+ text :=
  List.dropWhile_suffix isBlank

theorem skipAll_suffix {read : Text → Option Text} (shortens : ∀ text rest, read text = some rest → rest <:+ text)
    (text : Text) : skipAll read text <:+ text := by
  fun_induction skipAll read text with
  | case1 text rest success _ ih => exact ih.trans (shortens text rest success)
  | case2 text rest success _ => exact List.suffix_refl _
  | case3 text fails => exact List.suffix_refl _

theorem exists_suffix_of_firstAtWord? {α : Type} {read : Text → Option α} {inside : Bool} {text : Text} {found : α}
    (success : firstAtWord? read inside text = some found) : ∃ back, back <:+ text ∧ read back = some found := by
  induction text generalizing inside with
  | nil =>
    rw [firstAtWord?] at success
    split at success
    · cases success
    · exact ⟨[], List.suffix_refl _, success⟩
  | cons c cs ih =>
    rw [firstAtWord?] at success
    split at success
    · rename_i here
      cases success
      split at here
      · cases here
      · exact ⟨c :: cs, List.suffix_refl _, here⟩
    · obtain ⟨back, suffix, read⟩ := ih success
      exact ⟨back, suffix.trans (List.suffix_cons c cs), read⟩

theorem exists_suffix_of_firstMatch? {α : Type} {read : Text → Option α} {text : Text} {found : α}
    (success : firstMatch? read text = some found) : ∃ back, back <:+ text ∧ read back = some found := by
  induction text with
  | nil => exact ⟨[], List.suffix_refl _, success⟩
  | cons c cs ih =>
    rw [firstMatch?] at success
    split at success
    · rename_i here
      cases success
      exact ⟨c :: cs, List.suffix_refl _, here⟩
    · obtain ⟨back, suffix, read⟩ := ih success
      exact ⟨back, suffix.trans (List.suffix_cons c cs), read⟩

/-- What a search finds was read somewhere. -/
theorem exists_read_of_mem_allMatches {α : Type} {read : Text → Option (α × Text)} {text : Text} {found : α}
    (member : found ∈ allMatches read text) : ∃ back rest, read back = some (found, rest) := by
  suffices search : ∀ start offset, (offset, found) ∈ matchesFrom read start text →
      ∃ back rest, read back = some (found, rest) by
    obtain ⟨⟨offset, _⟩, memberFrom, rfl⟩ := List.mem_map.mp member
    exact search 0 offset memberFrom
  intro start offset memberFrom
  clear member
  fun_induction matchesFrom read start text with
  | case1 => exact absurd memberFrom List.not_mem_nil
  | case2 start c cs first rest success _ ih =>
    rcases List.mem_cons.mp memberFrom with same | memberFrom
    · cases same
      exact ⟨_, rest, success⟩
    · exact ih memberFrom
  | case3 start c cs first rest success _ =>
    cases List.mem_singleton.mp memberFrom
    exact ⟨_, rest, success⟩
  | case4 start c cs _ ih => exact ih memberFrom

end Text

namespace Java

theorem arguments?_spec {text args rest : Text} (found : arguments? text = some (args, rest)) :
    (∀ c ∈ args, c ∈ text) ∧ rest <:+ text := by
  unfold arguments? at found
  split at found
  · rename_i inner opened
    have inside : inner <:+ text := by
      refine List.IsSuffix.trans ?_ (skipBlanks_suffix text)
      rw [opened]
      exact List.suffix_cons _ _
    split at found
    · rename_i behind closed
      cases found
      refine ⟨fun c member => inside.subset (List.takeWhile_subset _ member), ?_⟩
      refine List.IsSuffix.trans ?_ ((List.dropWhile_suffix (l := inner) (· != ')')).trans inside)
      rw [closed]
      exact List.suffix_cons _ _
    · cases found
  · cases found

theorem mem_of_literal? {text inner rest : Text} (found : literal? text = some (inner, rest)) :
    ∀ c ∈ inner, c ∈ text := by
  unfold literal? at found
  split at found
  · split at found
    · cases found
      exact fun c member => List.mem_cons_of_mem _ (List.takeWhile_subset _ member)
    · cases found
  · cases found

theorem suffix_of_keyEquals? {key text rest : Text} (found : keyEquals? key text = some rest) : rest <:+ text := by
  unfold keyEquals? at found
  split at found
  · rename_i behind shape
    cases found
    obtain ⟨start, success, skipped⟩ := Option.map_eq_some_iff.mp shape
    have below : '=' :: behind <:+ text := by
      rw [← skipped]
      exact (skipBlanks_suffix start).trans (suffix_of_after? success)
    exact (skipBlanks_suffix behind).trans ((List.suffix_cons _ _).trans below)
  · cases found

theorem mem_of_keyedLiteral? {key text inner : Text} (found : keyedLiteral? key text = some inner) :
    ∀ c ∈ inner, c ∈ text := by
  obtain ⟨⟨_, rest⟩, read, rfl⟩ := Option.map_eq_some_iff.mp found
  obtain ⟨behind, success, literal⟩ := Option.bind_eq_some_iff.mp read
  exact fun c member => (suffix_of_keyEquals? success).subset (mem_of_literal? literal c member)

end Java

namespace Mapping

open Java

theorem suffix_of_kind? {text rest : Text} {kind : Kind} (found : kind? text = some (kind, rest)) :
    rest <:+ text := by
  obtain ⟨tried, _, read⟩ := List.exists_of_findSome?_eq_some found
  obtain ⟨behind, success, same⟩ := Option.map_eq_some_iff.mp read
  cases same
  exact suffix_of_wholeWord? success

/-- A mapping starts with an at sign, its arguments are cut out of the text, and it ends before the rest. -/
theorem mapping?_spec {text args rest : Text} {kind : Kind} (found : mapping? text = some ((kind, args), rest)) :
    ∃ behind, text = '@' :: behind ∧ (∀ c ∈ args, c ∈ behind) ∧ rest <:+ behind := by
  unfold mapping? at found
  split at found
  · rename_i behind
    refine ⟨behind, rfl, ?_⟩
    split at found
    · rename_i read success
      have below := suffix_of_kind? success
      split at found
      · rename_i inner after read
        cases found
        obtain ⟨inside, suffix⟩ := arguments?_spec read
        exact ⟨fun c member => below.subset (inside c member), suffix.trans below⟩
      · cases found
        exact ⟨fun c member => absurd member List.not_mem_nil, below⟩
    · cases found
  · cases found

theorem mapping?_consumes : Consumes mapping? := by
  rintro text ⟨kind, args⟩ rest found
  obtain ⟨behind, rfl, _, used, rfl⟩ := mapping?_spec found
  exact ⟨'@' :: used, rfl⟩

theorem mem_namedVerbs_of_methodReference? {text verb rest : Text}
    (found : methodReference? text = some (verb, rest)) : verb ∈ namedVerbs := by
  unfold methodReference? at found
  split at found
  · obtain ⟨named, member, read⟩ := List.exists_of_findSome?_eq_some found
    obtain ⟨behind, _, same⟩ := Option.map_eq_some_iff.mp read
    cases same
    exact member
  · cases found

/-- Every verb of a mapping is one that a comment can carry. -/
theorem mem_verbs_of_mem_occurrence {occurrence : Occurrence} {verb : Text} (member : verb ∈ occurrence.verbs) :
    verb ∈ verbs := by
  cases kind : occurrence.kind with
  | generic =>
    simp only [Occurrence.verbs, kind, resolveVerbs, referencedVerbs] at member
    split at member
    · exact List.mem_append_right _ member
    · obtain ⟨back, rest, read⟩ := exists_read_of_mem_allMatches member
      exact List.mem_append_left _ (mem_namedVerbs_of_methodReference? read)
  | _ =>
    simp only [Occurrence.verbs, kind, resolveVerbs, List.mem_singleton] at member
    rw [member]
    decide

theorem mem_of_mem_splitList {quoted : Bool} {body element : Text} (member : element ∈ splitList quoted body) :
    ∀ c ∈ element, c ∈ body := by
  induction body generalizing quoted element with
  | nil =>
    cases List.mem_singleton.mp member
    exact fun c inside => inside
  | cons d ds ih =>
    have grown : ∀ {quoted : Bool} {element : Text}, element ∈ consFirst d (splitList quoted ds) →
        ∀ c ∈ element, c ∈ d :: ds := by
      intro quoted element member c inside
      cases parts : splitList quoted ds with
      | nil => exact absurd parts (splitList_ne_nil quoted ds)
      | cons first others =>
        rw [parts] at member
        rcases List.mem_cons.mp member with rfl | member
        · rcases List.mem_cons.mp inside with rfl | inside
          · exact List.mem_cons_self
          · exact List.mem_cons_of_mem _ (ih (parts ▸ List.mem_cons_self) c inside)
        · exact List.mem_cons_of_mem _ (ih (parts ▸ List.mem_cons_of_mem _ member) c inside)
    rw [splitList] at member
    split at member
    · exact grown member
    · split at member
      · rcases List.mem_cons.mp member with rfl | member
        · exact fun c inside => absurd inside List.not_mem_nil
        · exact fun c inside => List.mem_cons_of_mem _ (ih member c inside)
      · split at member
        · cases List.mem_singleton.mp member
          exact fun c inside => absurd inside List.not_mem_nil
        · exact grown member

theorem suffix_of_openBrace? {text rest : Text} (found : openBrace? text = some rest) : rest <:+ text := by
  unfold openBrace? at found
  split at found
  · cases found
    exact List.suffix_cons _ _
  · cases found

theorem suffix_of_listBody? {args body : Text} (found : listBody? args = some body) : body <:+ args := by
  unfold listBody? at found
  split at found
  · rename_i keyed
    cases found
    obtain ⟨back, suffix, read⟩ := exists_suffix_of_firstAtWord? keyed
    obtain ⟨key, _, success⟩ := List.exists_of_findSome?_eq_some read
    obtain ⟨behind, equals, opened⟩ := Option.bind_eq_some_iff.mp success
    exact (suffix_of_openBrace? opened).trans ((suffix_of_keyEquals? equals).trans suffix)
  · exact (suffix_of_openBrace? found).trans (skipBlanks_suffix args)

theorem mem_of_mem_singlePath {args : Text} : ∀ c ∈ singlePath args, c ∈ args := by
  intro c member
  unfold singlePath at member
  split at member
  · rename_i path keyed
    obtain ⟨back, suffix, read⟩ := exists_suffix_of_firstAtWord? keyed
    obtain ⟨key, _, success⟩ := List.exists_of_findSome?_eq_some read
    exact suffix.subset (mem_of_keyedLiteral? success c member)
  · cases literal : firstMatch? literal? args with
    | none =>
      rw [literal] at member
      exact absurd member List.not_mem_nil
    | some found =>
      rw [literal] at member
      obtain ⟨back, suffix, read⟩ := exists_suffix_of_firstMatch? literal
      exact suffix.subset (mem_of_literal? read c member)

/-- The paths of a mapping are cut out of its arguments. -/
theorem mem_of_mem_extractPaths {args path : Text} (member : path ∈ extractPaths args) : ∀ c ∈ path, c ∈ args := by
  unfold extractPaths at member
  split at member
  · cases List.mem_singleton.mp member
    exact mem_of_mem_singlePath
  · cases body : listBody? args with
    | none =>
      rw [body] at member
      exact absurd member List.not_mem_nil
    | some body' =>
      rw [body] at member
      obtain ⟨trimmed, trimmedMember, rfl⟩ := List.mem_map.mp member
      obtain ⟨element, elementMember, rfl⟩ := List.mem_map.mp (List.mem_filter.mp trimmedMember).1
      intro c inside
      have inElement := dropAround_subset (dropAround_subset (dropAround_subset inside))
      exact (suffix_of_listBody? body).subset (mem_of_mem_splitList elementMember c inElement)

end Mapping

namespace Binding

open Java

theorem mem_of_loneLiteral? {args inner : Text} (found : loneLiteral? args = some inner) : ∀ c ∈ inner, c ∈ args := by
  unfold loneLiteral? at found
  split at found
  · rename_i literal rest read
    split at found
    · cases found
      exact fun c member => (skipBlanks_suffix args).subset (mem_of_literal? read c member)
    · cases found
  · cases found

theorem mem_of_firstAtWord?_keyedLiteral? {key args inner : Text}
    (found : firstAtWord? (keyedLiteral? key) false args = some inner) : ∀ c ∈ inner, c ∈ args := by
  obtain ⟨back, suffix, read⟩ := exists_suffix_of_firstAtWord? found
  exact fun c member => suffix.subset (mem_of_keyedLiteral? read c member)

/-- The name that arguments give to a parameter is cut out of them. -/
theorem mem_of_alias? {args name : Text} (found : alias? args = some name) : ∀ c ∈ name, c ∈ args := by
  have member := List.mem_of_find?_eq_some found
  obtain ⟨candidate, candidateMember, trimmed⟩ := List.mem_filterMap.mp member
  obtain ⟨literal, read, rfl⟩ := Option.map_eq_some_iff.mp trimmed
  subst read
  intro c inside
  have inLiteral := dropAround_subset inside
  simp only [List.mem_cons, List.not_mem_nil, or_false] at candidateMember
  rcases candidateMember with lone | named | valued
  · exact mem_of_loneLiteral? lone.symm c inLiteral
  · exact mem_of_firstAtWord?_keyedLiteral? named.symm c inLiteral
  · exact mem_of_firstAtWord?_keyedLiteral? valued.symm c inLiteral

theorem word_of_identifier? {text identifier rest : Text} (found : identifier? text = some (identifier, rest)) :
    ∀ c ∈ identifier, isWord c = true := by
  unfold identifier? at found
  split at found
  · split at found
    · cases found
      exact fun c member => List.mem_takeWhile_imp member
    · cases found
  · cases found

theorem word_of_typed? {text type identifier rest : Text} (found : typed? text = some ((type, identifier), rest)) :
    ∀ c ∈ identifier, isWord c = true := by
  unfold typed? at found
  split at found
  · obtain ⟨behind, _, read⟩ := List.exists_of_findSome?_eq_some found
    obtain ⟨⟨name, after⟩, success, same⟩ := Option.map_eq_some_iff.mp read
    cases same
    exact word_of_identifier? success
  · cases found

theorem word_of_declaration? {text type identifier rest : Text}
    (found : declaration? text = some ((type, identifier), rest)) : ∀ c ∈ identifier, isWord c = true := by
  unfold declaration? at found
  split at found
  · rename_i read
    cases found
    obtain ⟨behind, _, success⟩ := Option.bind_eq_some_iff.mp read
    exact word_of_typed? success
  · exact word_of_typed? found

/-- The identifier of a declared parameter is a word. -/
theorem word_of_parameter? {marker text rest : Text} {declared : Declared}
    (found : parameter? marker text = some (declared, rest)) : ∀ c ∈ declared.identifier, isWord c = true := by
  unfold parameter? at found
  split at found
  · split at found
    · split at found
      · obtain ⟨⟨⟨type, identifier⟩, behind⟩, success, same⟩ := Option.map_eq_some_iff.mp found
        cases same
        exact word_of_declaration? success
      · cases found
    · cases found
  · cases found

theorem mem_putQuery {added member : QueryParameter} {found : List QueryParameter}
    (inside : member ∈ putQuery added found) : member = added ∨ member ∈ found := by
  induction found with
  | nil => exact .inl (List.mem_singleton.mp inside)
  | cons other rest ih =>
    rw [putQuery] at inside
    split at inside
    · exact (List.mem_cons.mp inside).imp id (List.mem_cons_of_mem _)
    · split at inside
      · exact List.mem_cons.mp inside
      · rcases List.mem_cons.mp inside with rfl | inside
        · exact .inr List.mem_cons_self
        · exact (ih inside).imp id (List.mem_cons_of_mem _)

end Binding

open Binding in
/-- Every query parameter of a signature is declared in it. -/
theorem Parameters.exists_declared_of_mem_queryParameters {signature : Text} {parameter : QueryParameter}
    (member : parameter ∈ (ofSignature signature).queryParameters) :
    ∃ declared ∈ allMatches (parameter? "RequestParam".toList) signature, parameter.name = declared.name := by
  suffices gathered : ∀ (all : List Declared) (found : List QueryParameter),
      parameter ∈ all.foldl (fun found declared =>
        putQuery { name := declared.name, declaredType := declared.type } found) found →
      parameter ∈ found ∨ ∃ declared ∈ all, parameter.name = declared.name from
    (gathered _ _ member).resolve_left List.not_mem_nil
  intro all
  induction all with
  | nil => exact fun found inside => .inl inside
  | cons declared rest ih =>
    intro found inside
    rcases ih _ inside with inside | ⟨other, otherMember, same⟩
    · rcases mem_putQuery inside with rfl | inside
      · exact .inr ⟨declared, List.mem_cons_self, rfl⟩
      · exact .inl inside
    · exact .inr ⟨other, List.mem_cons_of_mem _ otherMember, same⟩

end RouteComments
