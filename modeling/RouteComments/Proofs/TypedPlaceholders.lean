import RouteComments.Proofs.SlashForm

set_option autoImplicit false

namespace RouteComments.Url

open Text

/-- A text with others written before its characters; they are counted from zero. -/
def interleave (inserted : Nat → Text) : Text → Text
  | [] => []
  | c :: cs => inserted 0 ++ c :: interleave (fun place => inserted (place + 1)) cs

@[simp] theorem interleave_nil (inserted : Nat → Text) : interleave inserted [] = [] := rfl

@[simp] theorem interleave_cons (inserted : Nat → Text) (c : Char) (cs : Text) :
    interleave inserted (c :: cs) = inserted 0 ++ c :: interleave (fun place => inserted (place + 1)) cs := rfl

theorem interleave_append (inserted : Nat → Text) (front back : Text) :
    interleave inserted (front ++ back) =
      interleave inserted front ++ interleave (fun place => inserted (place + front.length)) back := by
  induction front generalizing inserted with
  | nil => rfl
  | cons c cs ih =>
    rw [List.cons_append, interleave_cons, ih, interleave_cons, List.append_assoc, List.cons_append]
    simp only [List.length_cons, Nat.add_assoc]

theorem interleave_eq_self {inserted : Nat → Text} {text : Text}
    (silent : ∀ place, place < text.length → inserted place = []) : interleave inserted text = text := by
  induction text generalizing inserted with
  | nil => rfl
  | cons c cs ih =>
    rw [interleave_cons, silent 0 (Nat.succ_pos _), List.nil_append,
      ih fun place inside => silent (place + 1) (Nat.succ_lt_succ inside)]

/-- A placeholder of a path without a type: the name between its braces, and the place of the closing one. -/
def Placeholder (path : Text) (place : Nat) (name : Text) : Prop :=
  ∃ front back, path = front ++ '{' :: (name ++ '}' :: back) ∧ name ≠ [] ∧ (∀ c ∈ name, isWord c = true) ∧
    place = front.length + 1 + name.length

section Reading

variable {name rest : Text}

/-- The reader of placeholders reads a name between braces and nothing else. -/
theorem placeholder?_eq_some_iff {text : Text} :
    placeholder? text = some (name, rest) ↔
      text = '{' :: (name ++ '}' :: rest) ∧ name ≠ [] ∧ ∀ c ∈ name, isWord c = true := by
  constructor
  · intro found
    unfold placeholder? at found
    split at found
    · rename_i inner
      split at found
      · rename_i starts
        split at found
        · rename_i behind closed
          cases found
          refine ⟨?_, ?_, fun c => List.mem_takeWhile_imp⟩
          · rw [← closed, List.takeWhile_append_dropWhile]
          · cases inner with
            | nil => cases starts
            | cons c cs =>
              rw [List.takeWhile_cons, show isWord c = true from starts]
              exact List.cons_ne_nil _ _
        · cases found
      · cases found
    · cases found
  · rintro ⟨rfl, filled, word⟩
    have closes : isWord '}' = false := by decide
    obtain ⟨c, cs, rfl⟩ := List.exists_cons_of_ne_nil filled
    have starts : startsWithWord (c :: cs ++ '}' :: rest) = true := word c List.mem_cons_self
    simp only [placeholder?, if_pos starts, dropWhile_append_cons word closes, takeWhile_append_cons word closes]

theorem placeholder_nil {place : Nat} : ¬ Placeholder [] place name := by
  rintro ⟨front, back, shape, -⟩
  exact absurd shape.symm (by simp)

/-- A placeholder starts at the first character or stands behind it. -/
theorem placeholder_cons_iff {c : Char} {cs : Text} {place : Nat} :
    Placeholder (c :: cs) place name ↔
      ((∃ back, placeholder? (c :: cs) = some (name, back)) ∧ place = 1 + name.length) ∨
        ∃ before, place = before + 1 ∧ Placeholder cs before name := by
  simp only [placeholder?_eq_some_iff]
  constructor
  · rintro ⟨front, back, shape, filled, word, rfl⟩
    cases front with
    | nil => exact .inl ⟨⟨back, shape, filled, word⟩, by simp⟩
    | cons d front =>
      obtain ⟨rfl, behind⟩ := List.cons.inj shape
      refine .inr ⟨front.length + 1 + name.length, ?_, front, back, behind, filled, word, rfl⟩
      rw [List.length_cons]
      omega
  · rintro (⟨⟨back, shape, filled, word⟩, rfl⟩ | ⟨before, rfl, front, back, rfl, filled, word, rfl⟩)
    · exact ⟨[], back, shape, filled, word, by simp⟩
    · refine ⟨c :: front, back, rfl, filled, word, ?_⟩
      rw [List.length_cons]
      omega

theorem placeholder_cons_of_none {c : Char} {cs : Text} {place : Nat} (fails : placeholder? (c :: cs) = none) :
    Placeholder (c :: cs) place name ↔ ∃ before, place = before + 1 ∧ Placeholder cs before name := by
  rw [placeholder_cons_iff, fails, or_iff_right]
  rintro ⟨⟨back, found⟩, -⟩
  cases found

/-- No placeholder starts in text without an opening brace. -/
theorem placeholder_append_iff {front back : Text} {place : Nat} (unopened : '{' ∉ front) :
    Placeholder (front ++ back) place name ↔ ∃ before, place = before + front.length ∧ Placeholder back before name := by
  induction front generalizing place with
  | nil => simp
  | cons c cs ih =>
    obtain ⟨different, others⟩ := List.ne_and_not_mem_of_not_mem_cons unopened
    have fails : placeholder? (c :: (cs ++ back)) = none := by
      rw [Option.eq_none_iff_forall_ne_some]
      rintro ⟨read, behind⟩ found
      exact different (List.cons.inj (placeholder?_eq_some_iff.mp found).1).1.symm
    rw [List.cons_append, placeholder_cons_of_none fails]
    simp only [ih others, List.length_cons]
    constructor
    · rintro ⟨_, rfl, before, rfl, found⟩
      exact ⟨before, by omega, found⟩
    · rintro ⟨before, rfl, found⟩
      exact ⟨before + cs.length, by omega, before, rfl, found⟩

/-- The placeholders of a path that starts with one are that one and those behind it. -/
theorem placeholder_of_read {other : Text} {place : Nat} (filled : name ≠ []) (word : ∀ c ∈ name, isWord c = true) :
    Placeholder ('{' :: (name ++ '}' :: rest)) place other ↔
      (other = name ∧ place = 1 + name.length) ∨
        ∃ before, place = before + (name.length + 2) ∧ Placeholder rest before other := by
  have read : placeholder? ('{' :: (name ++ '}' :: rest)) = some (name, rest) :=
    placeholder?_eq_some_iff.mpr ⟨rfl, filled, word⟩
  have unopened : '{' ∉ name ++ ['}'] := by
    rw [List.mem_append]
    exact fun member => member.elim (not_mem_of_isWord (by decide) word) (by decide)
  have inner : name ++ '}' :: rest = (name ++ ['}']) ++ rest := by simp
  rw [placeholder_cons_iff, read, inner]
  simp only [placeholder_append_iff unopened, List.length_append, List.length_singleton, Option.some.injEq,
    Prod.mk.injEq]
  constructor
  · rintro (⟨⟨back, rfl, rfl⟩, rfl⟩ | ⟨_, rfl, before, rfl, found⟩)
    · exact .inl ⟨rfl, rfl⟩
    · exact .inr ⟨before, by omega, found⟩
  · rintro (⟨rfl, rfl⟩ | ⟨before, rfl, found⟩)
    · exact .inl ⟨⟨rest, rfl, rfl⟩, rfl⟩
    · exact .inr ⟨before + (name.length + 1), by omega, before, rfl, found⟩

end Reading

section Writing

variable {typeOf : Text → TypeTag}

/-- What is written into a path: the type before the closing brace of each placeholder, and nothing elsewhere. -/
structure Types (typeOf : Text → TypeTag) (path : Text) (inserted : Nat → Text) : Prop where
  written : ∀ place name, Placeholder path place name → inserted place = ':' :: (typeOf name).name
  silent : ∀ place, (∀ name, ¬ Placeholder path place name) → inserted place = []

/-- What is written behind a character that starts no placeholder is written behind it without that character. -/
theorem Types.cons {c : Char} {cs : Text} {inserted : Nat → Text} (types : Types typeOf cs inserted)
    (fails : placeholder? (c :: cs) = none) :
    Types typeOf (c :: cs) fun
      | 0 => []
      | place + 1 => inserted place where
  written place name found := by
    obtain ⟨before, rfl, behind⟩ := (placeholder_cons_of_none fails).mp found
    exact types.written before name behind
  silent place none := by
    cases place with
    | zero => rfl
    | succ before =>
      exact types.silent before fun name behind =>
        none name ((placeholder_cons_of_none fails).mpr ⟨before, rfl, behind⟩)

/-- What is written into a path that starts with a placeholder of a name. -/
def behindName (name tag : Text) (inserted : Nat → Text) (place : Nat) : Text :=
  if place = 1 + name.length then ':' :: tag
  else if place < name.length + 2 then []
  else inserted (place - (name.length + 2))

theorem Types.behind {name rest : Text} {inserted : Nat → Text} (types : Types typeOf rest inserted)
    (filled : name ≠ []) (word : ∀ c ∈ name, isWord c = true) :
    Types typeOf ('{' :: (name ++ '}' :: rest)) (behindName name (typeOf name).name inserted) where
  written place other found := by
    rcases (placeholder_of_read filled word).mp found with ⟨rfl, rfl⟩ | ⟨before, rfl, behind⟩
    · simp [behindName]
    · rw [behindName, if_neg (by omega), if_neg (by omega), Nat.add_sub_cancel]
      exact types.written before other behind
  silent place none := by
    have elsewhere : place ≠ 1 + name.length := fun here =>
      none name ((placeholder_of_read filled word).mpr (.inl ⟨rfl, here⟩))
    rw [behindName, if_neg elsewhere]
    split
    · rfl
    · refine types.silent _ fun other behind => none other ((placeholder_of_read filled word).mpr (.inr ⟨_, ?_, behind⟩))
      omega

theorem interleave_behindName (name tag rest : Text) (inserted : Nat → Text) :
    interleave (behindName name tag inserted) ('{' :: (name ++ '}' :: rest)) =
      '{' :: (name ++ ':' :: (tag ++ '}' :: interleave inserted rest)) := by
  have quiet : ∀ place, place < ('{' :: name).length → behindName name tag inserted place = [] := by
    intro place inside
    rw [List.length_cons] at inside
    rw [behindName, if_neg (by omega), if_pos (by omega)]
  have closing : behindName name tag inserted (0 + ('{' :: name).length) = ':' :: tag := by
    rw [behindName, if_pos (by rw [List.length_cons]; omega)]
  have onward : (fun place => behindName name tag inserted (place + 1 + ('{' :: name).length)) = inserted := by
    funext place
    have back : place + 1 + ('{' :: name).length - (name.length + 2) = place := by
      rw [List.length_cons]
      omega
    rw [behindName, if_neg (by rw [List.length_cons]; omega), if_neg (by rw [List.length_cons]; omega), back]
  rw [← List.cons_append, interleave_append, interleave_eq_self quiet, interleave_cons, closing, onward]
  simp

/-- Typing the placeholders of a path writes their types and nothing else. -/
theorem exists_types (typeOf : Text → TypeTag) (path : Text) :
    ∃ inserted, typePlaceholders typeOf path = interleave inserted path ∧ Types typeOf path inserted := by
  fun_induction typePlaceholders typeOf path with
  | case1 path name rest found ih =>
    obtain ⟨inserted, same, types⟩ := ih
    obtain ⟨rfl, filled, word⟩ := placeholder?_eq_some_iff.mp found
    refine ⟨behindName name (typeOf name).name inserted, ?_, types.behind filled word⟩
    rw [interleave_behindName, same]
    simp [typedEnd]
  | case2 => exact ⟨fun _ => [], rfl, fun place name found => absurd found placeholder_nil, fun _ _ => rfl⟩
  | case3 c cs fails ih =>
    obtain ⟨inserted, same, types⟩ := ih
    exact ⟨_, by rw [same]; rfl, types.cons fails⟩

theorem head?_typePlaceholders (typeOf : Text → TypeTag) (path : Text) :
    (typePlaceholders typeOf path).head? = path.head? := by
  fun_cases typePlaceholders typeOf path with
  | case1 path name rest found =>
    obtain ⟨rfl, -⟩ := placeholder?_eq_some_iff.mp found
    rfl
  | case2 => rfl
  | case3 c cs fails => rfl

/-- The word characters at the start of a path stay, and what is behind them is typed. -/
theorem span_typePlaceholders (typeOf : Text → TypeTag) (path : Text) :
    (typePlaceholders typeOf path).takeWhile isWord = path.takeWhile isWord ∧
      (typePlaceholders typeOf path).dropWhile isWord = typePlaceholders typeOf (path.dropWhile isWord) := by
  have inside : ∀ c ∈ path.takeWhile isWord, isWord c = true := fun c => List.mem_takeWhile_imp
  have typed : typePlaceholders typeOf path =
      path.takeWhile isWord ++ typePlaceholders typeOf (path.dropWhile isWord) := by
    conv => lhs; rw [← List.takeWhile_append_dropWhile (p := isWord) (l := path)]
    exact typePlaceholders_append (not_mem_of_isWord (by decide) inside) typeOf _
  have head := head?_typePlaceholders typeOf (path.dropWhile isWord)
  rw [typed]
  cases behind : typePlaceholders typeOf (path.dropWhile isWord) with
  | nil =>
    rw [List.append_nil]
    exact ⟨List.takeWhile_eq_self_iff.mpr inside, List.dropWhile_eq_nil_iff.mpr inside⟩
  | cons c rest =>
    rw [behind] at head
    have stops : isWord c = false := stops_of_head?_dropWhile head.symm
    exact ⟨takeWhile_append_cons inside stops rest, dropWhile_append_cons inside stops rest⟩

/-- Where a placeholder stands behind an opening brace of a typed path, it stood there before. -/
theorem placeholder?_typePlaceholders {cs name back : Text}
    (found : placeholder? ('{' :: typePlaceholders typeOf cs) = some (name, back)) :
    ∃ rest, placeholder? ('{' :: cs) = some (name, rest) := by
  obtain ⟨shape, filled, word⟩ := placeholder?_eq_some_iff.mp found
  obtain ⟨taken, left⟩ := span_typePlaceholders typeOf cs
  rw [(List.cons.inj shape).2, takeWhile_append_cons word (by decide)] at taken
  rw [(List.cons.inj shape).2, dropWhile_append_cons word (by decide)] at left
  have closes : (cs.dropWhile isWord).head? = some '}' := by
    rw [← head?_typePlaceholders typeOf, ← left]
    rfl
  obtain ⟨rest, behind⟩ := List.head?_eq_some_iff.mp closes
  refine ⟨rest, placeholder?_eq_some_iff.mpr ⟨?_, filled, word⟩⟩
  rw [taken, ← behind, List.takeWhile_append_dropWhile]

theorem brace_not_mem_tag (tag : TypeTag) : '{' ∉ tag.name := by
  cases tag <;> decide

/-- A typed path has no placeholder without a type. -/
theorem not_placeholder_typePlaceholders (typeOf : Text → TypeTag) (path : Text) (place : Nat) (name : Text) :
    ¬ Placeholder (typePlaceholders typeOf path) place name := by
  fun_induction typePlaceholders typeOf path generalizing place with
  | case1 path typed rest found ih =>
    obtain ⟨-, filled, word⟩ := placeholder?_eq_some_iff.mp found
    have shape : '{' :: typed ++ typedEnd (typeOf typed) ++ typePlaceholders typeOf rest =
        '{' :: (typed ++ ':' :: ((typeOf typed).name ++ ['}'])) ++ typePlaceholders typeOf rest := by
      simp [typedEnd]
    rw [shape, List.cons_append]
    intro untyped
    rcases placeholder_cons_iff.mp untyped with ⟨⟨back, read⟩, -⟩ | ⟨before, -, behind⟩
    · -- the name ends at the colon, and no brace closes it there
      obtain ⟨same, -, letters⟩ := placeholder?_eq_some_iff.mp read
      have stopped := congrArg (List.dropWhile isWord) (List.cons.inj same).2
      rw [List.append_assoc, List.cons_append, dropWhile_append_cons word (by decide),
        dropWhile_append_cons letters (by decide)] at stopped
      exact absurd (List.cons.inj stopped).1 (by decide)
    · have unopened : '{' ∉ typed ++ ':' :: ((typeOf typed).name ++ ['}']) := by
        simp only [List.mem_append, List.mem_cons, List.not_mem_nil, or_false, not_or]
        exact ⟨not_mem_of_isWord (by decide) word, by decide, brace_not_mem_tag _, by decide⟩
      obtain ⟨later, -, found⟩ := (placeholder_append_iff unopened).mp behind
      exact ih later found
  | case2 => exact placeholder_nil
  | case3 c cs fails ih =>
    intro untyped
    rcases placeholder_cons_iff.mp untyped with ⟨⟨back, read⟩, -⟩ | ⟨before, -, behind⟩
    · obtain rfl := (List.cons.inj (placeholder?_eq_some_iff.mp read).1).1
      obtain ⟨rest, found⟩ := placeholder?_typePlaceholders read
      rw [fails] at found
      cases found
    · exact ih before behind

/-- A path without placeholders stays as it is. -/
theorem typePlaceholders_eq_self (typeOf : Text → TypeTag) {path : Text}
    (untyped : ∀ place name, ¬ Placeholder path place name) : typePlaceholders typeOf path = path := by
  obtain ⟨inserted, same, types⟩ := exists_types typeOf path
  rw [same]
  exact interleave_eq_self fun place _ => types.silent place (untyped place)

end Writing

/-- The type of a name among parameters: that of the last path variable with the name, a string if there is none. -/
inductive TypedBy (parameters : Parameters) (name : Text) : TypeTag → Prop where
  | declared {before after : List PathVariable} {binding : PathVariable}
      (bound : parameters.pathVariables = before ++ binding :: after) (named : binding.name = name)
      (last : ∀ later ∈ after, later.name ≠ name) : TypedBy parameters name (.ofDeclared binding.declaredType)
  | unbound (free : ∀ binding ∈ parameters.pathVariables, binding.name ≠ name) : TypedBy parameters name .string

theorem typedBy_placeholderType (parameters : Parameters) (name : Text) :
    TypedBy parameters name (placeholderType parameters name) := by
  unfold placeholderType Parameters.pathVariableType
  cases found : parameters.pathVariables.reverse.find? (·.name = name) with
  | none =>
    refine .unbound fun binding member => ?_
    simpa using List.find?_eq_none.mp found binding (List.mem_reverse.mpr member)
  | some binding =>
    obtain ⟨named, later, before, shape, none⟩ := List.find?_eq_some_iff_append.mp found
    rw [List.reverse_eq_iff, List.reverse_append, List.reverse_cons, List.append_assoc, List.singleton_append] at shape
    refine .declared shape (by simpa using named) fun other member => ?_
    simpa using none other (List.mem_reverse.mp member)

/-- Typing a path writes a colon and a type before the closing brace of each placeholder and changes nothing else, where
the type is that of the last path variable with the name. The typed path has no placeholder left, so that typing it
again, with any parameters, changes nothing. -/
theorem placeholders_typed_once (parameters : Parameters) (path : Text) :
    (∃ inserted, typedPath parameters path = interleave inserted path ∧
      (∀ place name, Placeholder path place name →
        ∃ tag, TypedBy parameters name tag ∧ inserted place = ':' :: tag.name) ∧
      ∀ place, (∀ name, ¬ Placeholder path place name) → inserted place = []) ∧
    (∀ place name, ¬ Placeholder (typedPath parameters path) place name) ∧
      ∀ others, typedPath others (typedPath parameters path) = typedPath parameters path := by
  have typed : ∀ place name, ¬ Placeholder (typedPath parameters path) place name :=
    not_placeholder_typePlaceholders _ path
  refine ⟨?_, typed, fun others => typePlaceholders_eq_self _ typed⟩
  obtain ⟨inserted, same, types⟩ := exists_types (placeholderType parameters) path
  refine ⟨inserted, same, fun place name found => ?_, types.silent⟩
  exact ⟨placeholderType parameters name, typedBy_placeholderType parameters name, types.written place name found⟩

/-- A placeholder inside braces, one directly behind it, and braces around no name: the last variable of a name gives
its type, and a name without a variable is a string. -/
theorem nestedBraces_typed :
    let path := "\x7b\x7bid\x7d\x7d\x7bx\x7d/\x7b\x7d\x7by".toList
    let parameters : Parameters :=
      { pathVariables := [⟨"id".toList, some "Long".toList⟩, ⟨"id".toList, some "UUID".toList⟩], queryParameters := [] }
    Placeholder path 4 "id".toList ∧
      typedPath parameters path = "\x7b\x7bid:uuid\x7d\x7d\x7bx:string\x7d/\x7b\x7d\x7by".toList ∧
      typedPath .empty (typedPath parameters path) = typedPath parameters path := by
  intro path parameters
  have inner : Placeholder path 4 "id".toList :=
    ⟨['{'], "\x7d\x7bx\x7d/\x7b\x7d\x7by".toList, by decide, by decide, by decide, by decide⟩
  exact ⟨inner, by decide +kernel, (placeholders_typed_once parameters path).2.2 .empty⟩

end RouteComments.Url
