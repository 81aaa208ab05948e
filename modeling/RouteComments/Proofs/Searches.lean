import RouteComments.Parameter.Signature
import RouteComments.Proofs.Readers

set_option autoImplicit false

namespace RouteComments

open Text

namespace Text

section Words

variable {c : Char}

theorem after?_append {word : Text} (outside : c ∉ word) (text rest : Text) :
    after? word (text ++ c :: rest) = (after? word text).map (· ++ c :: rest) := by
  induction word generalizing text with
  | nil => simp
  | cons d word ih =>
    have different : d ≠ c := fun same => outside (same ▸ List.mem_cons_self)
    have others : c ∉ word := fun member => outside (List.mem_cons_of_mem _ member)
    cases text with
    | nil => simp [after?, different]
    | cons e text =>
      by_cases same : d = e
      · simp [after?, same, ih others]
      · simp [after?, same]

/-- A word that is no longer than a text is not read beyond it. -/
theorem after?_append_of_le {word text : Text} (fits : word.length ≤ text.length) (back : Text) :
    after? word (text ++ back) = (after? word text).map (· ++ back) := by
  induction word generalizing text with
  | nil => simp
  | cons c word ih =>
    cases text with
    | nil => simp at fits
    | cons d text =>
      have behind := ih (Nat.le_of_succ_le_succ fits)
      by_cases same : c = d
      · simp [after?, same, behind]
      · simp [after?, same]

theorem not_mem_of_isWord {word : Text} (boundary : isWord c = false) (letters : ∀ d ∈ word, isWord d = true) :
    c ∉ word := by
  intro member
  rw [letters c member] at boundary
  cases boundary

/-- No blank is a word character. -/
theorem isWord_of_isBlank (blank : isBlank c = true) : isWord c = false := by
  have codes : ∀ range ∈ blankRanges, ∀ code ∈ List.range' range.1 (range.2 + 1 - range.1),
      isWord (Char.ofNat code) = false := by decide +kernel
  obtain ⟨range, listed, inRange⟩ := List.any_eq_true.mp blank
  simp only [Bool.and_eq_true, decide_eq_true_eq] at inRange
  have code := codes range listed c.toNat (List.mem_range'_1.mpr ⟨inRange.1, by omega⟩)
  rwa [Char.ofNat_toNat] at code

theorem isBlank_of_isWord (word : isWord c = true) : isBlank c = false := by
  rw [← Bool.not_eq_true]
  intro blank
  rw [isWord_of_isBlank blank] at word
  cases word

/-- Spaces and tabs are blank. -/
theorem isSpaceOrTab_of_solid (solid : isBlank c = false) : isSpaceOrTab c = false := by
  rw [← Bool.not_eq_true]
  intro space
  rw [isSpaceOrTab, Bool.or_eq_true, beq_iff_eq, beq_iff_eq] at space
  rcases space with rfl | rfl
  · exact absurd solid (by decide)
  · exact absurd solid (by decide)

theorem startsWithWord_append (boundary : isWord c = false) (text rest : Text) :
    startsWithWord (text ++ c :: rest) = startsWithWord text := by
  cases text with
  | nil => exact boundary
  | cons d ds => rfl

/-- A whole word is read before a word boundary as it is read at the end of a text. -/
theorem wholeWord?_append {word : Text} (boundary : isWord c = false) (outside : c ∉ word) (text rest : Text) :
    wholeWord? word (text ++ c :: rest) = (wholeWord? word text).map (· ++ c :: rest) := by
  unfold wholeWord?
  rw [after?_append outside]
  cases after? word text with
  | none => rfl
  | some behind =>
    simp only [Option.map_some, startsWithWord_append boundary]
    by_cases goesOn : startsWithWord behind = true
    · simp [goesOn]
    · simp [goesOn]

theorem skipBlanks1?_eq_some_iff {text rest : Text} :
    skipBlanks1? text = some rest ↔ ∃ blanks : Text, blanks ≠ [] ∧ (∀ c ∈ blanks, isBlank c = true) ∧
      text = blanks ++ rest ∧ ∀ c ∈ rest.head?, isBlank c = false := by
  constructor
  · intro found
    cases text with
    | nil => cases found
    | cons c cs =>
      rw [skipBlanks1?] at found
      split at found
      · rename_i blank
        cases found
        refine ⟨c :: cs.takeWhile isBlank, List.cons_ne_nil _ _, ?_, ?_, fun d here => ?_⟩
        · exact List.forall_mem_cons.mpr ⟨blank, fun d => List.mem_takeWhile_imp⟩
        · rw [List.cons_append, skipBlanks, List.takeWhile_append_dropWhile]
        · exact stops_of_head?_dropWhile here
      · cases found
  · rintro ⟨blanks, spaced, blank, rfl, solid⟩
    obtain ⟨c, others, rfl⟩ := List.exists_cons_of_ne_nil spaced
    obtain ⟨first, later⟩ := List.forall_mem_cons.mp blank
    rw [List.cons_append, skipBlanks1?, if_pos first, skipBlanks, List.dropWhile_append_of_pos later]
    cases rest with
    | nil => rfl
    | cons d ds => rw [List.dropWhile_cons, solid d rfl]; rfl

theorem skipBlanks1?_append (solid : isBlank c = false) (text rest : Text) :
    skipBlanks1? (text ++ c :: rest) = (skipBlanks1? text).map (· ++ c :: rest) := by
  cases text with
  | nil => simp [skipBlanks1?, solid]
  | cons d ds =>
    rw [List.cons_append, skipBlanks1?, skipBlanks1?, skipBlanks, dropWhile_append_stop solid]
    split
    · rfl
    · rfl

/-- What is behind a text stays when the reader that skips never goes on over its end. -/
theorem skipAll_append {read : Text → Option Text} {text back : Text}
    (shortens : ∀ text rest, read text = some rest → rest <:+ text)
    (stable : ∀ rest, rest <:+ text → read (rest ++ back) = (read rest).map (· ++ back)) :
    skipAll read (text ++ back) = skipAll read text ++ back := by
  have here := stable text (List.suffix_refl text)
  fun_induction skipAll read text with
  | case1 text rest success shorter ih =>
    have suffix := shortens text rest success
    have behind : ∀ other, other <:+ rest → read (other ++ back) = (read other).map (· ++ back) :=
      fun other below => stable other (below.trans suffix)
    have fits : (rest ++ back).length < (text ++ back).length := by
      rw [List.length_append, List.length_append]
      omega
    rw [skipAll, here, success]
    exact (if_pos fits).trans (ih behind (behind rest (List.suffix_refl rest)))
  | case2 text rest success notShorter =>
    have grows : ¬ (rest ++ back).length < (text ++ back).length := by
      rw [List.length_append, List.length_append]
      omega
    rw [skipAll, here, success]
    exact if_neg grows
  | case3 text fails => rw [skipAll, here, fails, Option.map_none]

theorem startsWithWord_eq_false_iff {text : Text} :
    startsWithWord text = false ↔ ∀ c ∈ text.head?, isWord c = false := by
  cases text with
  | nil => simp [startsWithWord]
  | cons c cs => simp [startsWithWord]

theorem wholeWord?_eq_some_iff {word text rest : Text} :
    wholeWord? word text = some rest ↔ text = word ++ rest ∧ startsWithWord rest = false := by
  unfold wholeWord?
  constructor
  · intro found
    split at found
    · rename_i behind success
      split at found
      · cases found
      · rename_i ends
        cases found
        exact ⟨after?_eq_some_iff.mp success, Bool.eq_false_iff.mpr ends⟩
    · cases found
  · rintro ⟨rfl, ends⟩
    rw [after?_eq_some_iff.mpr rfl]
    simp [ends]

/-- Of the words of a text the whole one is read. -/
theorem wholeWord?_of_word {word name : Text} (letters : ∀ d ∈ word, isWord d = true)
    (nameLetters : ∀ d ∈ name, isWord d = true) (boundary : isWord c = false) (rest : Text) :
    wholeWord? word (name ++ c :: rest) = if name = word then some (c :: rest) else none := by
  split
  · rename_i same
    exact wholeWord?_eq_some_iff.mpr ⟨by rw [same], boundary⟩
  · rename_i different
    rw [Option.eq_none_iff_forall_ne_some]
    intro behind found
    obtain ⟨shape, ends⟩ := wholeWord?_eq_some_iff.mp found
    have taken := congrArg (List.takeWhile isWord) shape
    rw [takeWhile_append_cons nameLetters boundary, List.takeWhile_append_of_pos letters] at taken
    cases behind with
    | nil => exact different (by rw [taken]; exact List.append_nil word)
    | cons d ds =>
      have stops : isWord d = false := ends
      rw [List.takeWhile_cons, stops] at taken
      exact different (by rw [taken]; exact List.append_nil word)

/-- A search for words is not changed by text behind it in which there is none. -/
theorem isSome_firstAtWord?_append {α : Type} {read : Text → Option α} {tail : Text}
    (stable : ∀ text, (read (text ++ tail)).isSome = (read text).isSome) (empty : read [] = none)
    (silent : ∀ inside, firstAtWord? read inside tail = none) (inside : Bool) (text : Text) :
    (firstAtWord? read inside (text ++ tail)).isSome = (firstAtWord? read inside text).isSome := by
  induction text generalizing inside with
  | nil => simp [silent, firstAtWord?, empty]
  | cons d ds ih =>
    have here := stable (d :: ds)
    have behind := ih (isWord d)
    rw [List.cons_append] at here ⊢
    cases inside with
    | true => simpa [firstAtWord?] using behind
    | false =>
      cases found : read (d :: ds) with
      | none =>
        rw [found, Option.isSome_none, Option.isSome_eq_false_iff, Option.isNone_iff_eq_none] at here
        simpa [firstAtWord?, found, here] using behind
      | some result =>
        rw [found, Option.isSome_some] at here
        obtain ⟨other, read'⟩ := Option.isSome_iff_exists.mp here
        simp [firstAtWord?, found, read']

end Words

section First

variable {α : Type} {read : Text → Option α}

theorem firstAtWord?_of_read {text : Text} {found : α} (success : read text = some found) :
    firstAtWord? read false text = some found := by
  cases text with
  | nil => exact success
  | cons c cs => simp [firstAtWord?, success]

/-- A search goes on behind a boundary that its reader never crosses. -/
theorem firstAtWord?_append_boundary {read : Text → Option Text} {c : Char} {rest : Text} (boundary : isWord c = false)
    (empty : read [] = none) (stable : ∀ text, read (text ++ c :: rest) = (read text).map (· ++ c :: rest))
    (inside : Bool) (text : Text) :
    firstAtWord? read inside (text ++ c :: rest) =
      ((firstAtWord? read inside text).map (· ++ c :: rest)).or (firstAtWord? read false rest) := by
  induction text generalizing inside with
  | nil =>
    have here := stable []
    rw [List.nil_append, empty, Option.map_none] at here
    cases inside <;> simp [firstAtWord?, here, empty, boundary]
  | cons d ds ih =>
    have here := stable (d :: ds)
    rw [List.cons_append] at here ⊢
    cases inside with
    | true => simp [firstAtWord?, ih]
    | false =>
      cases found : read (d :: ds) with
      | none => simp [firstAtWord?, here, found, ih]
      | some result => simp [firstAtWord?, here, found]

theorem firstMatch?_of_read {text : Text} {found : α} (success : read text = some found) :
    firstMatch? read text = some found := by
  cases text with
  | nil => exact success
  | cons c cs => simp [firstMatch?, success]

theorem firstMatch?_append {front back : Text}
    (fails : ∀ rest, rest <:+ front → rest ≠ [] → read (rest ++ back) = none) :
    firstMatch? read (front ++ back) = firstMatch? read back := by
  induction front with
  | nil => rfl
  | cons c cs ih =>
    have here := fails (c :: cs) (List.suffix_refl _) (List.cons_ne_nil _ _)
    rw [List.cons_append] at here ⊢
    rw [firstMatch?, here]
    exact ih fun rest suffix filled => fails rest (suffix.trans (List.suffix_cons c cs)) filled

end First

section Matches

variable {α : Type} {read : Text → Option (α × Text)}

/-- A search that starts at a larger offset finds the same at larger offsets. -/
theorem matchesFrom_add (start more : Nat) (text : Text) :
    matchesFrom read (start + more) text =
      (matchesFrom read start text).map fun found => (found.1 + more, found.2) := by
  fun_induction matchesFrom read start text with
  | case1 => simp [matchesFrom]
  | case2 start c cs found rest success shorter ih =>
    rw [Nat.add_right_comm] at ih
    rw [matchesFrom]
    simp only [success, if_pos shorter, List.map_cons, ih]
  | case3 start c cs found rest success notShorter =>
    rw [matchesFrom]
    simp [success, notShorter]
  | case4 start c cs fails ih =>
    rw [Nat.add_right_comm] at ih
    rw [matchesFrom]
    simp only [fails, ih]

/-- The matches do not depend on the offset that the search starts with. -/
theorem map_snd_matchesFrom (start : Nat) (text : Text) :
    (matchesFrom read start text).map Prod.snd = allMatches read text := by
  rw [← Nat.zero_add start, matchesFrom_add, List.map_map, allMatches]
  rfl

/-- A search passes over text in which the reader fails everywhere. -/
theorem matchesFrom_append {front back : Text}
    (fails : ∀ rest, rest <:+ front → rest ≠ [] → read (rest ++ back) = none) (start : Nat) :
    matchesFrom read start (front ++ back) = matchesFrom read (start + bytes front) back := by
  induction front generalizing start with
  | nil => rfl
  | cons c cs ih =>
    have here := fails (c :: cs) (List.suffix_refl _) (List.cons_ne_nil _ _)
    have behind : ∀ rest, rest <:+ cs → rest ≠ [] → read (rest ++ back) = none :=
      fun rest suffix filled => fails rest (suffix.trans (List.suffix_cons c cs)) filled
    rw [List.cons_append] at here ⊢
    rw [matchesFrom, here]
    simp only [ih behind, bytes_cons, Nat.add_assoc]

theorem allMatches_append {front back : Text}
    (fails : ∀ rest, rest <:+ front → rest ≠ [] → read (rest ++ back) = none) :
    allMatches read (front ++ back) = allMatches read back := by
  rw [allMatches, matchesFrom_append fails, map_snd_matchesFrom]

theorem allMatches_cons {c : Char} {cs : Text} (fails : read (c :: cs) = none) :
    allMatches read (c :: cs) = allMatches read cs := by
  rw [allMatches, matchesFrom, fails]
  exact map_snd_matchesFrom _ cs

/-- What is read at the start of a text is the first match, and the search goes on behind it. -/
theorem allMatches_of_read {text rest : Text} {found : α} (success : read text = some (found, rest))
    (shorter : rest.length < text.length) : allMatches read text = found :: allMatches read rest := by
  cases text with
  | nil => simp at shorter
  | cons c cs =>
    have fits : rest.length ≤ cs.length := Nat.le_of_lt_succ shorter
    rw [allMatches, matchesFrom, success]
    simp only [if_pos fits, List.map_cons, map_snd_matchesFrom]

/-- A search without matches failed everywhere. -/
theorem read_eq_none_of_matchesFrom {start : Nat} {text : Text} (silent : matchesFrom read start text = []) :
    ∀ rest, rest <:+ text → rest ≠ [] → read rest = none := by
  fun_induction matchesFrom read start text with
  | case1 => exact fun rest suffix filled => absurd (List.suffix_nil.mp suffix) filled
  | case2 start c cs found rest success shorter ih => cases silent
  | case3 start c cs found rest success notShorter => cases silent
  | case4 start c cs fails ih =>
    intro rest suffix filled
    rcases List.suffix_cons_iff.mp suffix with rfl | suffix
    · exact fails
    · exact ih silent rest suffix filled

/-- Over text that the reader never reads beyond, a search finds what it finds in the text alone, and goes on behind it.
-/
theorem matchesFrom_append_of_stable {front back : Text}
    (shortens : ∀ c cs found rest, read (c :: cs) = some (found, rest) → rest <:+ cs)
    (stable : ∀ text, text <:+ front → text ≠ [] →
      read (text ++ back) = (read text).map fun (found, rest) => (found, rest ++ back)) (start : Nat) :
    matchesFrom read start (front ++ back) =
      matchesFrom read start front ++ matchesFrom read (start + bytes front) back := by
  fun_induction matchesFrom read start front with
  | case1 => rfl
  | case2 start c cs found rest success shorter ih =>
    have suffix := shortens c cs found rest success
    obtain ⟨used, shape⟩ := suffix.trans (List.suffix_cons c cs)
    have here := stable (c :: cs) (List.suffix_refl _) (List.cons_ne_nil _ _)
    have behind := ih fun text below => stable text (below.trans ⟨used, shape⟩)
    have fits : (rest ++ back).length ≤ (cs ++ back).length := by
      rw [List.length_append, List.length_append]
      omega
    have place : start + bytes (upTo (c :: cs) rest) + bytes rest = start + bytes (c :: cs) := by
      rw [← shape, upTo_append, bytes_append, Nat.add_assoc]
    rw [place] at behind
    rw [success, List.cons_append] at here
    rw [List.cons_append, matchesFrom, here]
    simp only [Option.map_some, if_pos fits]
    rw [← List.cons_append, upTo_append_append, behind]
    rfl
  | case3 start c cs found rest success notShorter =>
    exact absurd (shortens c cs found rest success).length_le notShorter
  | case4 start c cs fails ih =>
    have here := stable (c :: cs) (List.suffix_refl _) (List.cons_ne_nil _ _)
    have behind := ih fun text below => stable text (below.trans (List.suffix_cons c cs))
    rw [fails, List.cons_append] at here
    rw [List.cons_append, matchesFrom, here]
    simp only [Option.map_none, behind, bytes_cons, Nat.add_assoc]

/-- A reader that reads nothing unless a sign stands at the head of the text. -/
def Needs (sign : Char) (read : Text → Option (α × Text)) : Prop :=
  ∀ c cs, c ≠ sign → read (c :: cs) = none

theorem Needs.fails {sign : Char} (needs : Needs sign read) {front : Text} (outside : sign ∉ front) (back : Text) :
    ∀ rest, rest <:+ front → rest ≠ [] → read (rest ++ back) = none := by
  intro rest suffix filled
  obtain ⟨c, cs, rfl⟩ := List.exists_cons_of_ne_nil filled
  have different : c ≠ sign := fun same => outside (same ▸ suffix.subset List.mem_cons_self)
  exact needs c (cs ++ back) different

end Matches

end Text

namespace Java

theorem arguments?_of_closed {args : Text} (closed : ')' ∉ args) (rest : Text) :
    arguments? ('(' :: (args ++ ')' :: rest)) = some (args, rest) := by
  have inside := bne_of_not_mem closed
  have skipped : skipBlanks ('(' :: (args ++ ')' :: rest)) = '(' :: (args ++ ')' :: rest) := rfl
  rw [arguments?, skipped]
  simp only [dropWhile_append_cons inside (bne_self_eq_false ')'), takeWhile_append_cons inside (bne_self_eq_false ')')]

theorem readAnnotated?_of_unmarked {inName : Char → Bool} {text : Text} (unmarked : text.head? ≠ some '@') :
    readAnnotated? inName text = none := by
  unfold readAnnotated?
  split
  · exact absurd rfl unmarked
  · rfl

theorem skipAnnotations_of_unmarked {inName : Char → Bool} {text : Text} (unmarked : text.head? ≠ some '@') :
    skipAnnotations inName text = text := by
  rw [skipAnnotations, skipAll, readAnnotated?_of_unmarked unmarked]

/-- The string literal of a text. -/
def quote (text : Text) : Text :=
  '"' :: (text ++ ['"'])

theorem quote_append (text back : Text) : quote text ++ back = '"' :: (text ++ '"' :: back) := by
  simp [quote]

theorem literal?_needs : Needs '"' literal? := by
  intro c cs different
  unfold literal?
  split
  · rename_i same
    cases same
    exact absurd rfl different
  · rfl

theorem literal?_spec {text inner rest : Text} (found : literal? text = some (inner, rest)) :
    text = quote inner ++ rest := by
  unfold literal? at found
  split at found
  · rename_i body
    split at found
    · rename_i c behind closed
      cases found
      have quoteStops := List.head?_dropWhile_not (· != '"') body
      rw [closed] at quoteStops
      have isQuote : c = '"' := by simpa using quoteStops
      conv => lhs; rw [← List.takeWhile_append_dropWhile (p := (· != '"')) (l := body), closed, isQuote]
      simp [quote]
    · cases found
  · cases found

theorem count_quote (text : Text) : (quote text).count '"' = text.count '"' + 2 := by
  simp [quote]

theorem literal?_quote {text : Text} (unquoted : '"' ∉ text) (rest : Text) :
    literal? (quote text ++ rest) = some (text, rest) := by
  have inside := bne_of_not_mem unquoted
  rw [quote_append, literal?, dropWhile_append_cons inside rfl, takeWhile_append_cons inside rfl]

theorem keyEquals?_spec {key text rest : Text} (found : keyEquals? key text = some rest) :
    ∃ front, '=' ∈ front ∧ text = front ++ rest := by
  unfold keyEquals? at found
  split at found
  · rename_i behind shape
    cases found
    obtain ⟨start, success, skipped⟩ := Option.map_eq_some_iff.mp shape
    obtain ⟨blanks, beforeEquals⟩ := skipBlanks_suffix start
    obtain ⟨more, behindEquals⟩ := skipBlanks_suffix behind
    refine ⟨key ++ (blanks ++ '=' :: more), by simp, ?_⟩
    rw [after?_eq_some_iff.mp success, ← beforeEquals, skipped]
    conv => lhs; rw [← behindEquals]
    simp only [List.append_assoc, List.cons_append]
  · cases found

theorem keyedLiteral?_spec {key text inner : Text} (found : keyedLiteral? key text = some inner) :
    ∃ front rest, '=' ∈ front ∧ text = front ++ (quote inner ++ rest) := by
  obtain ⟨⟨_, rest⟩, literal, rfl⟩ := Option.map_eq_some_iff.mp found
  obtain ⟨behind, equals, closed⟩ := Option.bind_eq_some_iff.mp literal
  obtain ⟨front, holds, rfl⟩ := keyEquals?_spec equals
  exact ⟨front, rest, holds, by rw [literal?_spec closed]⟩

theorem keyEquals?_of_written (key : Text) {before after : Text} (blankBefore : ∀ c ∈ before, isBlank c = true)
    (blankAfter : ∀ c ∈ after, isBlank c = true) {c : Char} (solid : isBlank c = false) (rest : Text) :
    keyEquals? key (key ++ (before ++ '=' :: (after ++ c :: rest))) = some (c :: rest) := by
  have read : after? key (key ++ (before ++ '=' :: (after ++ c :: rest))) =
      some (before ++ '=' :: (after ++ c :: rest)) := after?_eq_some_iff.mpr rfl
  have toEquals : skipBlanks (before ++ '=' :: (after ++ c :: rest)) = '=' :: (after ++ c :: rest) :=
    dropWhile_append_cons blankBefore (by decide) _
  have toRest : skipBlanks (after ++ c :: rest) = c :: rest := dropWhile_append_cons blankAfter solid _
  rw [keyEquals?, read, Option.map_some, toEquals]
  exact congrArg some toRest

end Java

namespace Mapping

theorem mapping?_needs : Needs '@' mapping? := by
  intro c cs different
  unfold mapping?
  split
  · rename_i same
    cases same
    exact absurd rfl different
  · rfl

theorem isSome_mapping? (text : Text) : (mapping? ('@' :: text)).isSome = (kind? text).isSome := by
  rw [mapping?]
  cases kind? text with
  | none => rfl
  | some found =>
    obtain ⟨kind, rest⟩ := found
    cases arguments : Java.arguments? rest <;> simp [arguments]

theorem kind?_append {c : Char} (boundary : isWord c = false) (text rest : Text) :
    kind? (text ++ c :: rest) = (kind? text).map fun (kind, behind) => (kind, behind ++ c :: rest) := by
  have outside : ∀ kind : Kind, c ∉ kind.keyword := fun kind =>
    not_mem_of_isWord boundary (by cases kind <;> decide)
  unfold kind?
  rw [List.map_findSome?]
  congr 1
  funext kind
  rw [wholeWord?_append boundary (outside kind), Function.comp_apply, Option.map_map, Option.map_map]
  rfl

/-- Behind text without a mapping a word boundary makes none. -/
theorem mapping?_append {c : Char} (boundary : isWord c = false) {text : Text} (filled : text ≠ [])
    (fails : mapping? text = none) (rest : Text) : mapping? (text ++ c :: rest) = none := by
  obtain ⟨d, ds, rfl⟩ := List.exists_cons_of_ne_nil filled
  by_cases sign : d = '@'
  · subst sign
    have same : (mapping? ('@' :: ds ++ c :: rest)).isSome = (mapping? ('@' :: ds)).isSome := by
      rw [List.cons_append, isSome_mapping?, kind?_append boundary, Option.isSome_map, isSome_mapping?]
    rw [fails, Option.isSome_none, Option.isSome_eq_false_iff, Option.isNone_iff_eq_none] at same
    exact same
  · exact mapping?_needs d (ds ++ c :: rest) sign

end Mapping

namespace Binding

theorem parameter?_needs (marker : Text) : Needs '@' (parameter? marker) := by
  intro c cs different
  unfold parameter?
  split
  · rename_i same
    cases same
    exact absurd rfl different
  · rfl

end Binding

namespace Signature

theorem hasAccessModifier_append {c : Char} (boundary : isWord c = false) {rest : Text}
    (silent : ∀ inside, firstAtWord? (fun text => accessModifiers.findSome? (wholeWord? · text)) inside
      (c :: rest) = none) (text : Text) :
    hasAccessModifier (text ++ c :: rest) = hasAccessModifier text := by
  apply isSome_firstAtWord?_append ?_ rfl silent
  intro text
  have letters : ∀ word ∈ accessModifiers, ∀ d ∈ word, isWord d = true := by decide
  have outside : ∀ word ∈ accessModifiers, c ∉ word := fun word listed =>
    not_mem_of_isWord boundary (letters word listed)
  rw [Bool.eq_iff_iff, List.findSome?_isSome_iff, List.findSome?_isSome_iff]
  refine exists_congr fun word => and_congr_right fun listed => ?_
  rw [wholeWord?_append boundary (outside word listed), Option.isSome_map]

theorem length_linesFrom_pos (seen : Bool) {lines : List Text} (filled : lines ≠ []) :
    0 < (linesFrom seen lines).length := by
  obtain ⟨line, rest, rfl⟩ := List.exists_cons_of_ne_nil filled
  rw [linesFrom]
  split
  · exact Nat.one_pos
  · exact Nat.succ_pos _

/-- A signature that ends within some lines does not depend on the lines behind them. -/
theorem linesFrom_append {front back : List Text} {seen : Bool} (filled : back ≠ [])
    (ends : (linesFrom seen (front ++ back)).length ≤ front.length) (other : List Text) :
    linesFrom seen (front ++ other) = linesFrom seen (front ++ back) := by
  induction front generalizing seen with
  | nil => exact absurd (length_linesFrom_pos seen filled) (by simpa using ends)
  | cons line rest ih =>
    simp only [List.cons_append, linesFrom] at ends ⊢
    split at ends
    · rename_i closes
      rw [if_pos closes, if_pos closes]
    · rename_i goesOn
      rw [if_neg goesOn, if_neg goesOn, ih (Nat.le_of_succ_le_succ ends)]

end Signature

end RouteComments
