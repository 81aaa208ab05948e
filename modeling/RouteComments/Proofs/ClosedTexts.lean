import Mathlib.Data.List.Infix
import RouteComments.Proofs.Searches

set_option autoImplicit false

namespace RouteComments

open Text

namespace Text

/-- Behind each opening parenthesis of a text stands a closing one. -/
def Closed (text : Text) : Prop :=
  ∀ rest, rest <:+ text → rest.head? = some '(' → ')' ∈ rest

instance (text : Text) : Decidable (Closed text) :=
  decidable_of_iff (∀ rest ∈ text.tails, rest.head? = some '(' → ')' ∈ rest) (by simp only [List.mem_tails, Closed])

theorem Closed.suffix {text rest : Text} (closed : Closed text) (suffix : rest <:+ text) : Closed rest :=
  fun other below => closed other (below.trans suffix)

theorem Closed.append_blanks {text blanks : Text} (closed : Closed text) (blank : ∀ c ∈ blanks, isBlank c = true) :
    Closed (text ++ blanks) := by
  rintro rest ⟨front, shape⟩ opens
  rcases List.append_eq_append_iff.mp shape with ⟨behind, rfl, rfl⟩ | ⟨behind, rfl, rfl⟩
  · cases behind with
    | nil => exact absurd (blank '(' (List.mem_of_head? opens)) (by decide)
    | cons c cs =>
      rw [List.cons_append, List.head?_cons] at opens
      exact List.mem_append_left _ (closed (c :: cs) (List.suffix_append _ _) opens)
  · have member := List.mem_append_right behind (List.mem_of_head? opens)
    exact absurd (blank '(' member) (by decide)

theorem skipBlanks_append_of_nil {text : Text} (blank : skipBlanks text = []) (back : Text) :
    skipBlanks (text ++ back) = skipBlanks back :=
  List.dropWhile_append_of_pos (List.dropWhile_eq_nil_iff.mp blank)

theorem skipBlanks_append_of_ne_nil {text : Text} (solid : skipBlanks text ≠ []) (back : Text) :
    skipBlanks (text ++ back) = skipBlanks text ++ back := by
  rw [skipBlanks, List.dropWhile_append, if_neg]
  · rfl
  · rwa [List.isEmpty_iff]

/-- The first character behind the blanks of a text stays the first with more text behind it. -/
theorem head?_skipBlanks_append {text : Text} {c : Char} (head : (skipBlanks text).head? = some c) (back : Text) :
    (skipBlanks (text ++ back)).head? = some c := by
  have solid : skipBlanks text ≠ [] := by
    intro none
    rw [none] at head
    cases head
  rw [skipBlanks_append_of_ne_nil solid, List.head?_append, head]
  rfl

end Text

namespace Java

section Arguments

variable {text back : Text} (closed : Closed text) (unopened : (skipBlanks back).head? ≠ some '(')

include closed unopened

/-- Arguments are read beyond a closed text only where a parenthesis opens behind it. -/
theorem arguments?_append :
    arguments? (text ++ back) = (arguments? text).map fun (args, rest) => (args, rest ++ back) := by
  have suffix := skipBlanks_suffix text
  cases start : skipBlanks text with
  | nil =>
    rw [arguments?, arguments?, skipBlanks_append_of_nil start, start]
    split
    · rename_i inner opens
      rw [opens] at unopened
      exact absurd rfl unopened
    · rfl
  | cons c cs =>
    rw [start] at suffix
    have onward : skipBlanks (text ++ back) = c :: (cs ++ back) := by
      rw [skipBlanks_append_of_ne_nil (by rw [start]; exact List.cons_ne_nil c cs), start, List.cons_append]
    rw [arguments?, arguments?, onward, start]
    by_cases opens : c = '('
    · subst opens
      have closes : ')' ∈ cs := by simpa using closed _ suffix rfl
      obtain ⟨args, rest, rfl, free⟩ := List.eq_append_cons_of_mem closes
      have inside := bne_of_not_mem free
      simp only [List.append_assoc, List.cons_append, dropWhile_append_cons inside (bne_self_eq_false ')'),
        takeWhile_append_cons inside (bne_self_eq_false ')'), Option.map_some]
    · simp [opens]

theorem skipArguments_append : skipArguments (text ++ back) = skipArguments text ++ back := by
  rw [skipArguments, skipArguments, arguments?_append closed unopened]
  cases arguments? text with
  | none => rfl
  | some found => rfl

end Arguments

theorem suffix_of_skipArguments (text : Text) : skipArguments text <:+ text := by
  unfold skipArguments
  split
  · rename_i found
    exact (arguments?_spec found).2
  · exact List.suffix_refl text

end Java

namespace Mapping

open Java

/-- A mapping on the lines of a closed text is read beyond them only where a parenthesis opens behind them. -/
theorem mapping?_append_of_closed {text back : Text} (ends : text.getLast? = some '\n') (closed : Closed text)
    (unopened : (skipBlanks back).head? ≠ some '(') :
    mapping? (text ++ back) = (mapping? text).map fun (found, rest) => (found, rest ++ back) := by
  obtain ⟨front, rfl⟩ := List.getLast?_eq_some_iff.mp ends
  have boundary : isWord '\n' = false := by decide
  cases front with
  | nil => rfl
  | cons c cs =>
    by_cases sign : c = '@'
    · subst sign
      have shape : '@' :: cs ++ ['\n'] ++ back = '@' :: (cs ++ '\n' :: back) := by simp
      have onward := kind?_append boundary cs back
      have here := kind?_append boundary cs []
      rw [shape, List.cons_append, mapping?, mapping?, onward, here]
      cases found : kind? cs with
      | none => rfl
      | some read =>
        obtain ⟨kind, behind⟩ := read
        have suffix : behind ++ ['\n'] <:+ '@' :: cs ++ ['\n'] := by
          obtain ⟨used, split⟩ := (suffix_of_kind? found).trans (List.suffix_cons '@' cs)
          exact ⟨used, by rw [← split, List.append_assoc]⟩
        have more := arguments?_append (closed.suffix suffix) unopened
        rw [List.append_assoc, List.singleton_append] at more
        simp only [Option.map_some, more]
        cases arguments? (behind ++ ['\n']) with
        | none => simp
        | some found => rfl
    · rw [List.cons_append, List.cons_append, mapping?_needs c _ sign, mapping?_needs c _ sign, Option.map_none]

/-- So the mappings of the lines of a closed text come first, and the search goes on behind them. -/
theorem matchesFrom_mapping?_append {front back : Text} (ends : ∀ c ∈ front.getLast?, c = '\n')
    (closed : Closed front) (unopened : (skipBlanks back).head? ≠ some '(') (start : Nat) :
    matchesFrom mapping? start (front ++ back) =
      matchesFrom mapping? start front ++ matchesFrom mapping? (start + bytes front) back := by
  apply matchesFrom_append_of_stable
  · rintro c cs ⟨kind, args⟩ rest found
    obtain ⟨behind, shape, -, suffix⟩ := mapping?_spec found
    cases shape
    exact suffix
  · intro text suffix filled
    refine mapping?_append_of_closed ?_ (closed.suffix suffix) unopened
    obtain ⟨before, rfl⟩ := suffix
    obtain ⟨c, last⟩ := Option.ne_none_iff_exists'.mp (mt List.getLast?_eq_none_iff.mp filled)
    have same := ends c (by rw [List.getLast?_append, last]; rfl)
    rw [last, same]

end Mapping

end RouteComments
