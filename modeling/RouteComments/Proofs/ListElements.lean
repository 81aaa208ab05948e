import RouteComments.Mapping.Paths
import RouteComments.Proofs.Texts

set_option autoImplicit false

namespace RouteComments.Mapping

open Text

section Quotes

variable {quoted : Bool}

/-- A text ends inside a string literal. Quotes open and close literals in turn; `quoted` says whether the text starts
inside one. -/
def EndsQuoted (quoted : Bool) (text : Text) : Prop :=
  (quoted.toNat + text.count '"') % 2 = 1

/-- Whether a literal is open behind a character. -/
def quotedAfter (quoted : Bool) (c : Char) : Bool :=
  if c = '"' then !quoted else quoted

theorem endsQuoted_nil : EndsQuoted quoted [] ↔ quoted = true := by
  cases quoted <;> simp [EndsQuoted]

theorem endsQuoted_cons (c : Char) (text : Text) :
    EndsQuoted quoted (c :: text) ↔ EndsQuoted (quotedAfter quoted c) text := by
  unfold EndsQuoted quotedAfter
  by_cases quote : c = '"'
  · subst quote
    rw [List.count_cons_self, if_pos rfl]
    cases quoted with
    | false => simp only [Bool.toNat_false, Bool.not_false, Bool.toNat_true]; omega
    | true => simp only [Bool.toNat_true, Bool.not_true, Bool.toNat_false]; omega
  · rw [List.count_cons_of_ne quote, if_neg quote]

end Quotes

/-- What splitting does at a character: outside a literal a comma starts an element and a brace ends the list, and all
else goes to the first element. -/
theorem splitList_cons (quoted : Bool) (c : Char) (cs : Text) :
    (quoted = false ∧ c = ',' ∧ splitList quoted (c :: cs) = [] :: splitList false cs) ∨
      (quoted = false ∧ c = '}' ∧ splitList quoted (c :: cs) = [[]]) ∨
      ((c = ',' ∨ c = '}' → quoted = true) ∧
        splitList quoted (c :: cs) = consFirst c (splitList (quotedAfter quoted c) cs)) := by
  by_cases quote : c = '"'
  · subst quote
    exact .inr (.inr ⟨by simp, by simp [splitList, quotedAfter]⟩)
  · cases quoted with
    | true => exact .inr (.inr ⟨fun _ => rfl, by simp [splitList, quotedAfter, quote]⟩)
    | false =>
      by_cases comma : c = ','
      · subst comma
        exact .inl ⟨rfl, rfl, by simp [splitList]⟩
      · by_cases brace : c = '}'
        · subst brace
          exact .inr (.inl ⟨rfl, rfl, by simp [splitList]⟩)
        · have plain : ¬ (c = ',' ∨ c = '}') := not_or.mpr ⟨comma, brace⟩
          exact .inr (.inr ⟨fun sign => absurd sign plain, by simp [splitList, quotedAfter, quote, comma, brace]⟩)

section Braces

/-- A list ends at the first brace outside string literals, or with its body if there is none. -/
structure EndsAtBrace (quoted : Bool) (body listed : Text) : Prop where
  inside : ∀ front back, listed = front ++ '}' :: back → EndsQuoted quoted front
  ended : listed = body ∨ ∃ rest, body = listed ++ '}' :: rest ∧ ¬ EndsQuoted quoted listed

variable {quoted : Bool} {c : Char} {body listed : Text}

/-- A character that does not end the list stands in front of what is listed behind it. -/
theorem EndsAtBrace.cons (stays : c = '}' → quoted = true) (ends : EndsAtBrace (quotedAfter quoted c) body listed) :
    EndsAtBrace quoted (c :: body) (c :: listed) where
  inside front back shape := by
    cases front with
    | nil =>
      obtain ⟨brace, -⟩ := List.cons.inj shape
      exact endsQuoted_nil.mpr (stays brace)
    | cons first front =>
      obtain ⟨rfl, behind⟩ := List.cons.inj shape
      exact (endsQuoted_cons c front).mpr (ends.inside front back behind)
  ended := by
    rcases ends.ended with same | ⟨rest, split, outside⟩
    · exact .inl (congrArg (c :: ·) same)
    · refine .inr ⟨rest, congrArg (c :: ·) split, ?_⟩
      rwa [endsQuoted_cons]

/-- The elements of a list with commas between them are its body up to the closing brace. -/
theorem endsAtBrace_splitList (quoted : Bool) (body : Text) :
    EndsAtBrace quoted body (joinWith [','] (splitList quoted body)) := by
  induction body generalizing quoted with
  | nil => exact ⟨fun front back shape => by simp [splitList, joinWith] at shape, .inl rfl⟩
  | cons c cs ih =>
    rcases splitList_cons quoted c cs with ⟨rfl, rfl, split⟩ | ⟨rfl, rfl, split⟩ | ⟨stays, split⟩
    · obtain ⟨first, rest, elements⟩ := List.exists_cons_of_ne_nil (splitList_ne_nil false cs)
      have behind := ih false
      rw [elements] at behind
      rw [split, elements]
      exact behind.cons (by decide)
    · rw [split]
      exact ⟨fun front back shape => by simp [joinWith] at shape, .inr ⟨cs, rfl, by simp [joinWith, endsQuoted_nil]⟩⟩
    · rw [split, joinWith_consFirst]
      exact (ih _).cons fun brace => stays (.inr brace)

end Braces

section Commas

variable {quoted : Bool} {elements : List Text}

/-- Elements with commas between them, parted at a place in one of them. -/
theorem joinWith_append_cons (before : List Text) (front back : Text) (after : List Text) :
    joinWith [','] (before ++ (front ++ back) :: after) =
      joinWith [','] (before ++ [front]) ++ joinWith [','] (back :: after) := by
  induction before with
  | nil => cases after <;> simp [joinWith]
  | cons first before ih =>
    rw [List.cons_append, List.cons_append, joinWith_cons_of_ne_nil _ (by simp), joinWith_cons_of_ne_nil _ (by simp),
      ih, List.append_assoc, List.cons_append]

/-- At each place in an element, which parts it into `front` and `back`: a comma behind the place stands inside a string
literal, and a comma between this element and the next one outside. -/
def DividedAtCommas (quoted : Bool) (elements : List Text) : Prop :=
  ∀ before front back after, elements = before ++ (front ++ back) :: after →
    (back.head? = some ',' → EndsQuoted quoted (joinWith [','] (before ++ [front]))) ∧
      (back = [] → after ≠ [] → ¬ EndsQuoted quoted (joinWith [','] (before ++ [front])))

theorem dividedAtCommas_empty (quoted : Bool) : DividedAtCommas quoted [[]] := by
  intro before front back after shape
  obtain ⟨rfl, rest⟩ | ⟨others, -, rest⟩ := List.cons_eq_append_iff.mp shape
  · obtain ⟨empty, rfl⟩ := List.cons.inj rest
    obtain ⟨-, rfl⟩ := List.append_eq_nil_iff.mp empty
    exact ⟨nofun, fun _ filled => absurd rfl filled⟩
  · cases others <;> cases rest

/-- A comma outside string literals starts an element. -/
theorem DividedAtCommas.comma (divided : DividedAtCommas false elements) : DividedAtCommas false ([] :: elements) := by
  intro before front back after shape
  cases before with
  | nil =>
    obtain ⟨empty, -⟩ := List.cons.inj shape
    obtain ⟨rfl, rfl⟩ := List.append_eq_nil_iff.mp empty.symm
    exact ⟨nofun, fun _ _ => by simp [joinWith, endsQuoted_nil]⟩
  | cons first before =>
    obtain ⟨rfl, behind⟩ := List.cons.inj shape
    rw [List.cons_append, joinWith_cons_of_ne_nil _ (by simp), List.nil_append, endsQuoted_cons]
    exact divided before front back after behind

/-- Any other character goes to the first element. -/
theorem DividedAtCommas.consFirst {c : Char} (filled : elements ≠ []) (stays : c = ',' → quoted = true)
    (divided : DividedAtCommas (quotedAfter quoted c) elements) : DividedAtCommas quoted (consFirst c elements) := by
  obtain ⟨first, rest, rfl⟩ := List.exists_cons_of_ne_nil filled
  intro before front back after shape
  cases before with
  | nil =>
    obtain ⟨whole, rfl⟩ := List.cons.inj shape
    cases front with
    | nil =>
      subst whole
      exact ⟨fun comma => endsQuoted_nil.mpr (stays (Option.some.inj comma)), nofun⟩
    | cons d front =>
      obtain ⟨rfl, rfl⟩ := List.cons.inj whole
      have behind := divided [] front back rest rfl
      rwa [← endsQuoted_cons] at behind
  | cons start before =>
    obtain ⟨rfl, rfl⟩ := List.cons.inj shape
    have behind := divided (first :: before) front back after rfl
    rwa [← endsQuoted_cons, ← joinWith_consFirst] at behind

theorem dividedAtCommas_splitList (quoted : Bool) (body : Text) : DividedAtCommas quoted (splitList quoted body) := by
  induction body generalizing quoted with
  | nil => exact dividedAtCommas_empty quoted
  | cons c cs ih =>
    rcases splitList_cons quoted c cs with ⟨rfl, -, split⟩ | ⟨-, -, split⟩ | ⟨stays, split⟩
    · rw [split]
      exact (ih false).comma
    · rw [split]
      exact dividedAtCommas_empty quoted
    · rw [split]
      exact (ih _).consFirst (splitList_ne_nil _ cs) fun comma => stays (.inl comma)

end Commas

/-- What stands before a place in the elements of a body, and the comma behind it, stands at the start of the body. -/
theorem splitList_place {body front back : Text} {before after : List Text}
    (split : splitList false body = before ++ (front ++ back) :: after) {rest : Text}
    (comma : joinWith [','] (back :: after) = ',' :: rest) : joinWith [','] (before ++ [front]) ++ [','] <+: body := by
  have ends := endsAtBrace_splitList false body
  rw [split, joinWith_append_cons, comma] at ends
  rcases ends.ended with rfl | ⟨closed, rfl, -⟩
  · exact ⟨rest, by simp⟩
  · exact ⟨rest ++ '}' :: closed, by simp⟩

/-- Splitting loses nothing of a body. There is an element; the elements with commas between them are the body up to the
first brace outside string literals, or all of it without one; a comma in an element stands inside a string literal of
the body, and a comma between two elements outside. -/
theorem splitList_loses_nothing (body : Text) :
    splitList false body ≠ [] ∧
      EndsAtBrace false body (joinWith [','] (splitList false body)) ∧
      (∀ before front back after, splitList false body = before ++ (front ++ ',' :: back) :: after →
        joinWith [','] (before ++ [front]) ++ [','] <+: body ∧
          EndsQuoted false (joinWith [','] (before ++ [front]))) ∧
      ∀ before element next after, splitList false body = before ++ element :: next :: after →
        joinWith [','] (before ++ [element]) ++ [','] <+: body ∧
          ¬ EndsQuoted false (joinWith [','] (before ++ [element])) := by
  have divided := dividedAtCommas_splitList false body
  refine ⟨splitList_ne_nil false body, endsAtBrace_splitList false body, ?_, ?_⟩
  · intro before front back after split
    have inside := (divided before front (',' :: back) after split).1 rfl
    exact ⟨splitList_place split (joinWith_consFirst [','] ',' (back :: after)), inside⟩
  · intro before element next after split
    have whole : splitList false body = before ++ (element ++ []) :: next :: after := by rw [List.append_nil, split]
    have outside := (divided before element [] (next :: after) whole).2 rfl (List.cons_ne_nil next after)
    exact ⟨splitList_place whole rfl, outside⟩

end RouteComments.Mapping
