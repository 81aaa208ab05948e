import Mathlib.Data.List.Induction
import Mathlib.Data.List.Nodup
import RouteComments.Proofs.WrittenParameters
import RouteComments.Url.Compose

set_option autoImplicit false

namespace RouteComments

open Text Binding

namespace QueryParameter

/-- A query parameter stands before another one if its name is smaller. -/
def Before (first second : QueryParameter) : Prop :=
  precedes first.name second.name = true ∧ first.name ≠ second.name

/-- Query parameters are sorted by name, and no name comes twice. -/
def Ascending (found : List QueryParameter) : Prop :=
  found.Pairwise Before

section Order

variable {first second third : QueryParameter}

theorem Before.asymm (early : Before first second) : ¬ Before second first :=
  fun late => early.2 (precedes_antisymm early.1 late.1)

theorem Before.trans (early : Before first second) (late : Before second third) : Before first third := by
  refine ⟨precedes_trans early.1 late.1, fun same => early.2 (precedes_antisymm early.1 ?_)⟩
  rw [same]
  exact late.1

theorem before_of_not_precedes (late : ¬ precedes first.name second.name = true) : Before second first := by
  have total := precedes_total first.name second.name
  rw [Bool.eq_false_iff.mpr late, Bool.false_or] at total
  exact ⟨total, fun same => late (same ▸ total)⟩

variable {found others : List QueryParameter}

/-- A sorted list is given by its members. -/
theorem Ascending.ext (ascending : Ascending found) (ascendingToo : Ascending others)
    (members : ∀ parameter, parameter ∈ found ↔ parameter ∈ others) : found = others := by
  have distinct : ∀ list, Ascending list → list.Nodup :=
    fun list sorted => sorted.imp fun before same => before.2 (congrArg name same)
  refine List.Perm.eq_of_pairwise (fun a b _ _ early late => absurd late early.asymm) ascending ascendingToo ?_
  exact (List.perm_ext_iff_of_nodup (distinct found ascending) (distinct others ascendingToo)).mpr members

end Order

section Insertion

variable {parameter : QueryParameter} {found : List QueryParameter}

/-- A parameter takes the place of the one with its name and leaves all others. -/
theorem mem_putQuery (ascending : Ascending found) (other : QueryParameter) :
    other ∈ putQuery parameter found ↔ other = parameter ∨ (other ∈ found ∧ other.name ≠ parameter.name) := by
  induction found with
  | nil => simp [putQuery]
  | cons head rest ih =>
    obtain ⟨first, sorted⟩ := List.pairwise_cons.mp ascending
    rw [putQuery]
    by_cases same : head.name = parameter.name
    · have apart : ∀ other ∈ rest, other.name ≠ parameter.name := fun other member =>
        same ▸ (first other member).2.symm
      rw [if_pos same]
      grind
    · rw [if_neg same]
      split
      · rename_i early
        have before : Before parameter head := ⟨early, Ne.symm same⟩
        have apart : ∀ other ∈ rest, other.name ≠ parameter.name := fun other member =>
          (before.trans (first other member)).2.symm
        grind
      · have behind := ih sorted
        grind

theorem ascending_putQuery (ascending : Ascending found) : Ascending (putQuery parameter found) := by
  induction found with
  | nil => exact List.pairwise_singleton _ _
  | cons head rest ih =>
    obtain ⟨first, sorted⟩ := List.pairwise_cons.mp ascending
    rw [putQuery]
    by_cases same : head.name = parameter.name
    · have before : ∀ other ∈ rest, Before parameter other := by
        intro other member
        have early := first other member
        unfold Before at early ⊢
        rwa [same] at early
      rw [if_pos same]
      exact List.pairwise_cons.mpr ⟨before, sorted⟩
    · rw [if_neg same]
      split
      · rename_i early
        have before : Before parameter head := ⟨early, Ne.symm same⟩
        refine List.pairwise_cons.mpr ⟨?_, ascending⟩
        exact List.forall_mem_cons.mpr ⟨before, fun other member => before.trans (first other member)⟩
      · rename_i late
        refine List.pairwise_cons.mpr ⟨fun other member => ?_, ih sorted⟩
        rcases (mem_putQuery sorted other).mp member with rfl | ⟨member, -⟩
        · exact before_of_not_precedes late
        · exact first other member

end Insertion

section Folding

/-- The parameters that are put one after another into an empty list. -/
def collected (declared : List QueryParameter) : List QueryParameter :=
  declared.foldl (fun found parameter => putQuery parameter found) []

theorem collected_concat (declared : List QueryParameter) (parameter : QueryParameter) :
    collected (declared ++ [parameter]) = putQuery parameter (collected declared) := by
  simp [collected]

theorem ascending_collected (declared : List QueryParameter) : Ascending (collected declared) := by
  induction declared using List.reverseRecOn with
  | nil => exact List.Pairwise.nil
  | append_singleton front last ih =>
    rw [collected_concat]
    exact ascending_putQuery ih

/-- Of the parameters of a name the last one is collected. -/
theorem mem_collected (declared : List QueryParameter) (parameter : QueryParameter) :
    parameter ∈ collected declared ↔ declared.reverse.find? (·.name = parameter.name) = some parameter := by
  induction declared using List.reverseRecOn with
  | nil => simp [collected]
  | append_singleton front last ih =>
    rw [collected_concat, mem_putQuery (ascending_collected front), ih, List.reverse_concat, List.find?_cons]
    by_cases same : last.name = parameter.name
    · simp [same, eq_comm]
    · have other : parameter ≠ last := fun equal => same (congrArg name equal.symm)
      simp [same, Ne.symm same, other]

end Folding

end QueryParameter

namespace Binding

/-- The parameters that one annotation binds, in order of declaration. -/
def boundBy (binder : Binder) (parameters : List Written) : List Written :=
  parameters.filter (·.binder = binder)

/-- A signature with its parameters, up to the brace that opens the body of the method. -/
def signature (result method : Text) (parameters : List Written) : Text :=
  "public ".toList ++ result ++ " ".toList ++ method ++ "(".toList ++
    joinWith ", ".toList (parameters.map (·.text)) ++ ") \x7b".toList

/-- The type of the last query parameter that is bound to a name. -/
def lastType? (parameters : List Written) (name : Text) : Option Text :=
  ((boundBy .requestParam parameters).reverse.find? (·.name = name)).map (·.type.text)

def Written.pathVariable (parameter : Written) : PathVariable where
  name := parameter.name
  declaredType := some parameter.type.text

def Written.queryParameter (parameter : Written) : QueryParameter where
  name := parameter.name
  declaredType := parameter.type.text

section Signatures

variable (binder : Binder)

theorem map_declared_boundBy_cons (parameter : Written) (others : List Written) :
    (boundBy binder (parameter :: others)).map (·.declared) =
      (if parameter.binder = binder then [parameter.declared] else []) ++ (boundBy binder others).map (·.declared) := by
  by_cases own : parameter.binder = binder <;> simp [boundBy, own]

/-- A search over a list of parameters finds those with its annotation. -/
theorem allMatches_joined (parameters : List Written) {c : Char} {rest : Text} (boundary : isWord c = false)
    (silent : allMatches (parameter? binder.marker) (c :: rest) = []) :
    allMatches (parameter? binder.marker) (joinWith ", ".toList (parameters.map (·.text)) ++ c :: rest) =
      (boundBy binder parameters).map (·.declared) := by
  match parameters with
  | [] => exact silent
  | [parameter] =>
    have single := allMatches_written binder parameter boundary rest
    rw [silent] at single
    rw [map_declared_boundBy_cons]
    exact single
  | parameter :: next :: others =>
    have behind := allMatches_joined (next :: others) boundary silent
    have shape : joinWith ", ".toList ((parameter :: next :: others).map (·.text)) ++ c :: rest =
        parameter.text ++ ',' :: ([' '] ++ (joinWith ", ".toList ((next :: others).map (·.text)) ++ c :: rest)) := by
      simp [joinWith]
    have separated : ∀ text, allMatches (parameter? binder.marker) (',' :: ([' '] ++ text)) =
        allMatches (parameter? binder.marker) text :=
      allMatches_unmarked binder (show '@' ∉ ", ".toList by decide)
    rw [shape, allMatches_written binder parameter (by decide), separated, behind,
      map_declared_boundBy_cons binder parameter]

variable {result method : Text} (parameters : List Written)

theorem allMatches_signature (unmarkedResult : '@' ∉ result) (unmarkedMethod : '@' ∉ method) :
    allMatches (parameter? binder.marker) (signature result method parameters) =
      (boundBy binder parameters).map (·.declared) := by
  have head : '@' ∉ "public ".toList ++ result ++ " ".toList ++ method ++ "(".toList := by
    simp [unmarkedResult, unmarkedMethod]
  have tail : allMatches (parameter? binder.marker) (')' :: " \x7b".toList) = [] := by
    have silent := allMatches_unmarked binder (show '@' ∉ ')' :: " \x7b".toList by decide) []
    rw [List.append_nil] at silent
    rw [silent, allMatches, matchesFrom]
    rfl
  unfold signature
  rw [List.append_assoc, allMatches_unmarked binder head]
  exact allMatches_joined binder parameters (by decide) tail

theorem pathVariables_signature (unmarkedResult : '@' ∉ result) (unmarkedMethod : '@' ∉ method) :
    (Parameters.ofSignature (signature result method parameters)).pathVariables =
      (boundBy .pathVariable parameters).map (·.pathVariable) := by
  have found := allMatches_signature .pathVariable parameters unmarkedResult unmarkedMethod
  have read : (Parameters.ofSignature (signature result method parameters)).pathVariables =
      (allMatches (parameter? Binder.pathVariable.marker) (signature result method parameters)).map fun declared =>
        { name := declared.name, declaredType := some declared.type } := rfl
  rw [read, found, List.map_map]
  refine List.map_congr_left fun parameter _ => ?_
  rw [Function.comp_apply, Written.name_declared, Written.pathVariable, Written.declared]

theorem queryParameters_signature (unmarkedResult : '@' ∉ result) (unmarkedMethod : '@' ∉ method) :
    (Parameters.ofSignature (signature result method parameters)).queryParameters =
      QueryParameter.collected ((boundBy .requestParam parameters).map (·.queryParameter)) := by
  have found := allMatches_signature .requestParam parameters unmarkedResult unmarkedMethod
  have read : (Parameters.ofSignature (signature result method parameters)).queryParameters =
      (allMatches (parameter? Binder.requestParam.marker) (signature result method parameters)).foldl
        (fun found declared => putQuery { name := declared.name, declaredType := declared.type } found) [] := rfl
  rw [read, found, QueryParameter.collected, List.foldl_map, List.foldl_map]
  simp only [Written.name_declared]
  rfl

end Signatures

section LastTypes

variable {parameters others : List Written}

/-- The query parameters are the map from a name to the type of its last declaration. -/
theorem mem_collected_queryParameter (parameters : List Written) (name type : Text) :
    { name, declaredType := type } ∈ QueryParameter.collected
      ((boundBy .requestParam parameters).map (·.queryParameter)) ↔ lastType? parameters name = some type := by
  rw [QueryParameter.mem_collected, ← List.map_reverse, List.find?_map, lastType?]
  have names : ((fun parameter : QueryParameter => decide (parameter.name = name)) ∘ Written.queryParameter) =
      fun parameter => decide (parameter.name = name) := rfl
  rw [names]
  cases last : (boundBy .requestParam parameters).reverse.find? (fun parameter => decide (parameter.name = name)) with
  | none => simp
  | some parameter =>
    have named : parameter.name = name := by simpa using List.find?_some last
    simp [Written.queryParameter, named]

theorem collected_eq_of_lastType? (same : ∀ name, lastType? others name = lastType? parameters name) :
    QueryParameter.collected ((boundBy .requestParam others).map (·.queryParameter)) =
      QueryParameter.collected ((boundBy .requestParam parameters).map (·.queryParameter)) := by
  refine (QueryParameter.ascending_collected _).ext (QueryParameter.ascending_collected _) ?_
  rintro ⟨name, type⟩
  rw [mem_collected_queryParameter, mem_collected_queryParameter, same]

/-- Where no name is declared twice, the last declaration of a name is any. -/
theorem lastType?_eq_some_iff (distinct : ((boundBy .requestParam parameters).map (·.name)).Nodup) {name type : Text} :
    lastType? parameters name = some type ↔
      ∃ parameter ∈ boundBy .requestParam parameters, parameter.name = name ∧ parameter.type.text = type := by
  rw [lastType?, Option.map_eq_some_iff]
  constructor
  · rintro ⟨parameter, last, typed⟩
    have named : parameter.name = name := by simpa using List.find?_some last
    exact ⟨parameter, List.mem_reverse.mp (List.mem_of_find?_eq_some last), named, typed⟩
  · rintro ⟨parameter, member, named, typed⟩
    have declaredOnce : ((boundBy .requestParam parameters).reverse.find? (·.name = name)).isSome = true :=
      List.find?_isSome.mpr ⟨parameter, List.mem_reverse.mpr member, by simpa using named⟩
    obtain ⟨other, last⟩ := Option.isSome_iff_exists.mp declaredOnce
    have namedToo : other.name = name := by simpa using List.find?_some last
    have memberToo := List.mem_reverse.mp (List.mem_of_find?_eq_some last)
    have same : other = parameter :=
      List.inj_on_of_nodup_map distinct memberToo member (namedToo.trans named.symm)
    exact ⟨other, last, same ▸ typed⟩

theorem lastType?_eq_of_perm (perm : others.Perm parameters)
    (distinct : ((boundBy .requestParam parameters).map (·.name)).Nodup) (name : Text) :
    lastType? others name = lastType? parameters name := by
  have bound : (boundBy .requestParam others).Perm (boundBy .requestParam parameters) := perm.filter _
  have distinctToo : ((boundBy .requestParam others).map (·.name)).Nodup := (bound.map _).nodup_iff.mpr distinct
  apply Option.ext
  intro type
  rw [lastType?_eq_some_iff distinct, lastType?_eq_some_iff distinctToo]
  simp only [bound.mem_iff]

end LastTypes

end Binding

namespace Url

/-- A query string shows query parameters that are sorted in their order. -/
theorem queryString_of_ascending {parameters : Parameters}
    (ascending : QueryParameter.Ascending parameters.queryParameters) :
    queryString parameters = joinWith ['&'] (parameters.queryParameters.map queryPair) := by
  rw [queryString, List.mergeSort_of_pairwise (ascending.imp And.left)]

end Url

namespace Parameters

/-- Written parameters are read back from a signature: the path variables in order of declaration, and the query
parameters sorted by name, each name with the type of its last declaration. Signatures in which the last types are the
same have one query, so distinct query parameters may be declared in any order. -/
theorem declared_parameters_read_back {result method : Text} (unmarkedResult : '@' ∉ result)
    (unmarkedMethod : '@' ∉ method) (parameters : List Written) :
    let read := ofSignature (signature result method parameters)
    read.pathVariables = (boundBy .pathVariable parameters).map (·.pathVariable) ∧
      QueryParameter.Ascending read.queryParameters ∧
      (∀ name type, { name, declaredType := type } ∈ read.queryParameters ↔ lastType? parameters name = some type) ∧
      Url.queryString read = joinWith ['&'] (read.queryParameters.map Url.queryPair) ∧
      (∀ others, (∀ name, lastType? others name = lastType? parameters name) →
        (ofSignature (signature result method others)).queryParameters = read.queryParameters) ∧
      (∀ others, others.Perm parameters → ((boundBy .requestParam parameters).map (·.name)).Nodup →
        Url.queryString (ofSignature (signature result method others)) = Url.queryString read) := by
  intro read
  have query : ∀ written, (ofSignature (signature result method written)).queryParameters =
      QueryParameter.collected ((boundBy .requestParam written).map (·.queryParameter)) :=
    fun written => queryParameters_signature written unmarkedResult unmarkedMethod
  have ascending : QueryParameter.Ascending read.queryParameters := by
    rw [query]
    exact QueryParameter.ascending_collected _
  have unordered : ∀ others, (∀ name, lastType? others name = lastType? parameters name) →
      (ofSignature (signature result method others)).queryParameters = read.queryParameters := by
    intro others same
    rw [query, query, collected_eq_of_lastType? same]
  refine ⟨pathVariables_signature parameters unmarkedResult unmarkedMethod, ascending, ?_,
    Url.queryString_of_ascending ascending, unordered, ?_⟩
  · intro name type
    rw [query, mem_collected_queryParameter]
  · intro others perm distinct
    have same := unordered others (lastType?_eq_of_perm perm distinct)
    rw [Url.queryString, Url.queryString, same]

/-- A path variable with a given name, nested annotations, `final` and an array type. -/
def filmParameter : Written where
  binder := .pathVariable
  given := some { key := .alone, name := "film-id".toList, filled := by decide, plain := by decide }
  nested :=
    [{ name := "NotNull".toList, args := none, filled := by decide, word := by decide,
       unbound := by rintro ⟨⟩ <;> decide, enclosed := by decide },
     { name := "Size".toList, args := some "min = 1".toList, filled := by decide, word := by decide,
       unbound := by rintro ⟨⟩ <;> decide, enclosed := by decide }]
  isFinal := true
  type :=
    { name := "java.util.UUID".toList, arguments := none, isArray := true, filled := by decide, inName := by decide,
      notFinal := by decide, enclosed := by decide, closings := by decide }
  identifier := "id".toList
  valid := { filled := by decide, word := by decide }

/-- A query parameter whose type has nested type arguments. -/
def countsParameter : Written where
  binder := .requestParam
  given := some { key := .name, name := "page".toList, filled := by decide, plain := by decide }
  nested := []
  isFinal := false
  type :=
    { name := "Map".toList, arguments := some "String,List<Long>".toList, isArray := false, filled := by decide,
      inName := by decide, notFinal := by decide, enclosed := by decide, closings := by decide }
  identifier := "counts".toList
  valid := { filled := by decide, word := by decide }

def pageParameter : Written where
  binder := .requestParam
  given := none
  nested := []
  isFinal := false
  type :=
    { name := "int".toList, arguments := none, isArray := false, filled := by decide, inName := by decide,
      notFinal := by decide, enclosed := by decide, closings := by decide }
  identifier := "page".toList
  valid := { filled := by decide, word := by decide }

/-- A query parameter whose name stands behind the `value` key. -/
def orderParameter : Written where
  binder := .requestParam
  given := some { key := .value, name := "by".toList, filled := by decide, plain := by decide }
  nested := []
  isFinal := false
  type :=
    { name := "String".toList, arguments := none, isArray := false, filled := by decide, inName := by decide,
      notFinal := by decide, enclosed := by decide, closings := by decide }
  identifier := "order".toList
  valid := { filled := by decide, word := by decide }

theorem filmSignature_read_back :
    '@' ∉ "Film".toList ∧ '@' ∉ "find".toList ∧
      signature "Film".toList "find".toList [filmParameter, countsParameter, pageParameter] =
        "public Film find(@PathVariable(\"film-id\") @NotNull @Size(min = 1) final java.util.UUID[] id, ".toList ++
          "@RequestParam(name = \"page\") Map<String,List<Long>> counts, @RequestParam int page) \x7b".toList ∧
      (ofSignature (signature "Film".toList "find".toList
        [filmParameter, countsParameter, pageParameter])).pathVariables =
        [{ name := "film-id".toList, declaredType := some "java.util.UUID[]".toList }] ∧
      { name := "page".toList, declaredType := "int".toList } ∈
        (ofSignature (signature "Film".toList "find".toList
          [filmParameter, countsParameter, pageParameter])).queryParameters ∧
      Url.queryString (ofSignature (signature "Film".toList "find".toList
          [orderParameter, pageParameter, filmParameter])) =
        Url.queryString (ofSignature (signature "Film".toList "find".toList
          [filmParameter, pageParameter, orderParameter])) := by
  have result : '@' ∉ "Film".toList := by decide
  have method : '@' ∉ "find".toList := by decide
  obtain ⟨path, -, query, -⟩ := declared_parameters_read_back result method
    [filmParameter, countsParameter, pageParameter]
  obtain ⟨-, -, -, -, -, unordered⟩ := declared_parameters_read_back result method
    [filmParameter, pageParameter, orderParameter]
  refine ⟨result, method, by decide +kernel, path, (query _ _).mpr rfl, unordered _ ?_ (by decide)⟩
  exact List.reverse_perm [filmParameter, pageParameter, orderParameter]

end Parameters

end RouteComments
