import Mathlib.Data.List.TakeWhile
import RouteComments.Text.Blank

set_option autoImplicit false

namespace RouteComments.Text

section Deciding

variable (holds : Char → Prop) [DecidablePred holds]

/-- A property of the characters of a text is decided along the text, and not for all characters that there are. -/
instance (priority := 1100) (text : Text) : Decidable (∀ c ∈ text, holds c) :=
  List.decidableBAll holds text

instance (priority := 1100) (c? : Option Char) : Decidable (∀ c ∈ c?, holds c) :=
  Option.decidableForallMem c?

end Deciding

section Pieces

variable {α : Type}

theorem length_consFirst (a : α) {texts : List (List α)} (filled : texts ≠ []) :
    (consFirst a texts).length = texts.length := by
  cases texts with
  | nil => exact absurd rfl filled
  | cons text rest => rfl

theorem flatten_consFirst (a : α) (texts : List (List α)) : (consFirst a texts).flatten = a :: texts.flatten := by
  cases texts <;> rfl

theorem joinWith_cons_of_ne_nil (separator : α) {texts : List (List α)} (filled : texts ≠ []) (text : List α) :
    joinWith [separator] (text :: texts) = text ++ separator :: joinWith [separator] texts := by
  obtain ⟨next, rest, rfl⟩ := List.exists_cons_of_ne_nil filled
  simp [joinWith]

theorem joinWith_prefix (separator : List α) (front back : List (List α)) :
    joinWith separator front <+: joinWith separator (front ++ back) := by
  match front with
  | [] => exact List.nil_prefix
  | [text] =>
    cases back with
    | nil => exact List.prefix_refl _
    | cons next rest => exact ⟨separator ++ joinWith separator (next :: rest), by simp [joinWith]⟩
  | text :: next :: rest =>
    obtain ⟨more, shape⟩ := joinWith_prefix separator (next :: rest) back
    refine ⟨more, ?_⟩
    simp only [List.cons_append, joinWith, List.append_assoc] at shape ⊢
    rw [shape]

variable [DecidableEq α]

theorem length_pieces (separator : α) (text : List α) :
    (pieces separator text).length = text.count separator + 1 := by
  induction text with
  | nil => rfl
  | cons c cs ih =>
    by_cases isSeparator : c = separator
    · simp [pieces, isSeparator, ih]
    · rw [pieces, if_neg isSeparator, length_consFirst c (pieces_ne_nil separator cs), ih,
        List.count_cons_of_ne isSeparator]

theorem pieces_append_separator (separator : α) (front back : List α) :
    pieces separator (front ++ separator :: back) = pieces separator front ++ pieces separator back := by
  induction front with
  | nil => simp [pieces]
  | cons c cs ih =>
    by_cases isSeparator : c = separator
    · simp [pieces, isSeparator, ih]
    · simp only [List.cons_append, pieces, isSeparator, if_false, ih]
      cases parts : pieces separator cs with
      | nil => exact absurd parts (pieces_ne_nil separator cs)
      | cons part others => rfl

/-- Splitting joined texts gives the pieces of each. -/
theorem pieces_joinWith (separator : α) {texts : List (List α)} (filled : texts ≠ []) :
    pieces separator (joinWith [separator] texts) = texts.flatMap (pieces separator) := by
  match texts, filled with
  | [text], _ => simp [joinWith]
  | text :: next :: rest, _ =>
    rw [joinWith, List.append_assoc, List.singleton_append, pieces_append_separator,
      pieces_joinWith separator (List.cons_ne_nil next rest)]
    rfl

/-- Text without a separator goes to the first piece. -/
theorem pieces_append_of_not_mem {separator : α} {front back first : List α} {rest : List (List α)}
    (unbroken : separator ∉ front) (parts : pieces separator back = first :: rest) :
    pieces separator (front ++ back) = (front ++ first) :: rest := by
  induction front with
  | nil => exact parts
  | cons c cs ih =>
    obtain ⟨different, others⟩ := List.ne_and_not_mem_of_not_mem_cons unbroken
    rw [List.cons_append, pieces, if_neg different.symm, ih others]
    rfl

theorem pieces_eq_singleton {separator : α} {text : List α} (unbroken : separator ∉ text) :
    pieces separator text = [text] := by
  have whole := pieces_append_of_not_mem unbroken (show pieces separator [] = [] :: [] from rfl)
  rwa [List.append_nil] at whole

theorem not_mem_of_mem_pieces {separator : α} {text piece : List α} (member : piece ∈ pieces separator text) :
    separator ∉ piece := by
  induction text generalizing piece with
  | nil =>
    rw [pieces, List.mem_singleton] at member
    exact member ▸ List.not_mem_nil
  | cons c cs ih =>
    rw [pieces] at member
    split at member
    · rcases List.mem_cons.mp member with rfl | member
      · exact List.not_mem_nil
      · exact ih member
    · rename_i different
      cases parts : pieces separator cs with
      | nil => exact absurd parts (pieces_ne_nil separator cs)
      | cons first rest =>
        rw [parts] at ih member
        rcases List.mem_cons.mp member with rfl | member
        · intro found
          rcases List.mem_cons.mp found with same | found
          · exact different same.symm
          · exact ih List.mem_cons_self found
        · exact ih (List.mem_cons_of_mem _ member)

omit [DecidableEq α] in
theorem not_mem_joinWith {separator : List α} {texts : List (List α)} {a : α} (outside : a ∉ separator)
    (free : ∀ text ∈ texts, a ∉ text) : a ∉ joinWith separator texts := by
  match texts with
  | [] => exact List.not_mem_nil
  | [text] => exact free text List.mem_cons_self
  | text :: next :: rest =>
    rw [joinWith, List.mem_append, List.mem_append, not_or, not_or]
    exact ⟨⟨free text List.mem_cons_self, outside⟩,
      not_mem_joinWith outside fun other member => free other (List.mem_cons_of_mem _ member)⟩

end Pieces

section Trimming

variable {p : Char → Bool}

theorem mem_dropWhile_of_not {c : Char} {text : Text} (member : c ∈ text) (kept : p c = false) :
    c ∈ text.dropWhile p := by
  rw [← List.takeWhile_append_dropWhile (p := p) (l := text), List.mem_append] at member
  rcases member with taken | left
  · exact absurd (List.mem_takeWhile_imp taken) (by simp [kept])
  · exact left

theorem dropWhile_append_stop {c : Char} (stops : p c = false) (front rest : Text) :
    (front ++ c :: rest).dropWhile p = front.dropWhile p ++ c :: rest := by
  rw [List.dropWhile_append]
  split
  · rename_i empty
    rw [List.isEmpty_iff.mp empty, List.dropWhile_cons, stops]
    rfl
  · rfl

theorem dropWhile_append_cons {front : Text} (inside : ∀ d ∈ front, p d = true) {c : Char} (stops : p c = false)
    (rest : Text) : (front ++ c :: rest).dropWhile p = c :: rest := by
  rw [dropWhile_append_stop stops, List.dropWhile_eq_nil_iff.mpr inside]
  rfl

theorem takeWhile_append_cons {front : Text} (inside : ∀ d ∈ front, p d = true) {c : Char} (stops : p c = false)
    (rest : Text) : (front ++ c :: rest).takeWhile p = front := by
  rw [List.takeWhile_append_of_pos inside, List.takeWhile_cons, stops]
  exact List.append_nil front

theorem stops_of_head?_dropWhile {text : Text} {c : Char} (head : (text.dropWhile p).head? = some c) : p c = false := by
  have stops := List.head?_dropWhile_not p text
  rw [head] at stops
  simpa using stops

theorem head?_dropWhile_ne {text : Text} {c : Char} (outside : c ∉ text) : (text.dropWhile p).head? ≠ some c :=
  fun found => outside ((List.dropWhile_suffix p).mem (List.mem_of_head? found))

theorem bne_of_not_mem {c : Char} {text : Text} (outside : c ∉ text) : ∀ d ∈ text, (d != c) = true := by
  intro d member
  exact bne_iff_ne.mpr fun same => outside (same ▸ member)

/-- What stands before the first occurrence of a character is determined. -/
theorem eq_of_append_cons {c : Char} {front front' back back' : Text} (outside : c ∉ front) (outside' : c ∉ front')
    (same : front ++ c :: back = front' ++ c :: back') : front = front' := by
  have stops : (c != c) = false := bne_self_eq_false c
  have taken := congrArg (List.takeWhile (· != c)) same
  rwa [takeWhile_append_cons (bne_of_not_mem outside) stops,
    takeWhile_append_cons (bne_of_not_mem outside') stops] at taken

theorem dropEndWhile_prefix (text : Text) : ∃ back, text = dropEndWhile p text ++ back := by
  refine ⟨(text.reverse.takeWhile p).reverse, ?_⟩
  rw [dropEndWhile, ← List.reverse_append, List.takeWhile_append_dropWhile, List.reverse_reverse]

theorem dropAround_subset {text : Text} : dropAround p text ⊆ text := by
  intro c member
  obtain ⟨back, shape⟩ := dropEndWhile_prefix (p := p) (text.dropWhile p)
  apply (List.dropWhile_suffix (l := text) p).subset
  rw [shape]
  exact List.mem_append_left _ member

theorem mem_dropEndWhile_iff {c : Char} {text : Text} (kept : p c = false) : c ∈ dropEndWhile p text ↔ c ∈ text := by
  constructor
  · intro member
    obtain ⟨back, shape⟩ := dropEndWhile_prefix (p := p) text
    rw [shape]
    exact List.mem_append_left _ member
  · intro member
    rw [dropEndWhile, List.mem_reverse]
    exact mem_dropWhile_of_not (List.mem_reverse.mpr member) kept

theorem dropEndWhile_eq_nil_iff {text : Text} : dropEndWhile p text = [] ↔ ∀ c ∈ text, p c = true := by
  rw [dropEndWhile, List.reverse_eq_nil_iff, List.dropWhile_eq_nil_iff]
  simp only [List.mem_reverse]

theorem getLast?_dropEndWhile {text : Text} {c : Char} (last : (dropEndWhile p text).getLast? = some c) :
    p c = false := by
  rw [dropEndWhile, List.getLast?_reverse] at last
  exact stops_of_head?_dropWhile last

theorem dropEndWhile_append_of_all {front back : Text} (all : ∀ c ∈ back, p c = true) :
    dropEndWhile p (front ++ back) = dropEndWhile p front := by
  simp only [dropEndWhile, List.reverse_append]
  rw [List.dropWhile_append_of_pos]
  exact fun c member => all c (List.mem_reverse.mp member)

theorem dropEndWhile_append_of_ne_nil {front back : Text} (left : dropEndWhile p back ≠ []) :
    dropEndWhile p (front ++ back) = front ++ dropEndWhile p back := by
  have leftReversed : back.reverse.dropWhile p ≠ [] := fun none => left (by rw [dropEndWhile, none]; rfl)
  simp only [dropEndWhile, List.reverse_append]
  rw [List.dropWhile_append, if_neg (by simpa using leftReversed), List.reverse_append, List.reverse_reverse]

theorem dropAround_sublist (text : Text) : (dropAround p text).Sublist text := by
  obtain ⟨back, shape⟩ := dropEndWhile_prefix (p := p) (text.dropWhile p)
  have front : (dropAround p text).Sublist (text.dropWhile p) := by
    conv => rhs; rw [shape]
    exact List.sublist_append_left _ _
  exact front.trans (List.dropWhile_sublist p)

theorem dropAround_eq_nil_iff {text : Text} : dropAround p text = [] ↔ ∀ c ∈ text, p c = true := by
  rw [dropAround, dropEndWhile_eq_nil_iff]
  constructor
  · intro behind c member
    rw [← List.takeWhile_append_dropWhile (p := p) (l := text), List.mem_append] at member
    exact member.elim List.mem_takeWhile_imp (behind c)
  · exact fun all c member => all c ((List.dropWhile_suffix p).mem member)

theorem dropEndWhile_eq_self {text : Text} (solid : ∀ c ∈ text.getLast?, p c = false) :
    dropEndWhile p text = text := by
  rw [dropEndWhile, List.reverse_eq_iff]
  rw [← List.head?_reverse] at solid
  cases shape : text.reverse with
  | nil => rfl
  | cons c cs =>
    rw [shape] at solid
    rw [List.dropWhile_cons, solid c rfl]
    rfl

/-- Text with solid ends is what stays of it between characters of a class. -/
theorem dropAround_append {before core after : Text} (front : ∀ c ∈ before, p c = true)
    (back : ∀ c ∈ after, p c = true) (start : ∀ c ∈ core.head?, p c = false)
    (stop : ∀ c ∈ core.getLast?, p c = false) : dropAround p (before ++ (core ++ after)) = core := by
  rw [dropAround, List.dropWhile_append_of_pos front]
  cases core with
  | nil =>
    rw [List.nil_append, List.dropWhile_eq_nil_iff.mpr back]
    rfl
  | cons c cs =>
    rw [List.cons_append, List.dropWhile_cons, start c rfl, ← List.cons_append]
    exact (dropEndWhile_append_of_all back).trans (dropEndWhile_eq_self stop)

theorem upTo_append_append (text suffix back : Text) : upTo (text ++ back) (suffix ++ back) = upTo text suffix := by
  rw [upTo, upTo, List.length_append, List.length_append, Nat.add_sub_add_right]
  exact List.take_append_of_le_length (Nat.sub_le _ _)

end Trimming

section Searching

variable {α : Type} {read : Text → Option (α × Text)}

/-- A reader that gives what it found and the text behind it. -/
def Consumes (read : Text → Option (α × Text)) : Prop :=
  ∀ text found rest, read text = some (found, rest) → ∃ used, text = used ++ rest

/-- Every match was read somewhere in the text, at the offset that it carries. -/
theorem mem_matchesFrom (consumes : Consumes read) {start offset : Nat} {text : Text} {found : α}
    (member : (offset, found) ∈ matchesFrom read start text) :
    ∃ front back rest, text = front ++ back ∧ offset = start + bytes front ∧
      read back = some (found, rest) := by
  fun_induction matchesFrom read start text with
  | case1 => exact absurd member List.not_mem_nil
  | case2 start c cs first rest success shorter ih =>
    rcases List.mem_cons.mp member with same | member
    · cases same
      exact ⟨[], c :: cs, rest, rfl, rfl, success⟩
    · obtain ⟨front, back, behind, shape, place, found⟩ := ih member
      obtain ⟨used, split⟩ := consumes _ _ _ success
      refine ⟨used ++ front, back, behind, ?_, ?_, found⟩
      · rw [split, shape, List.append_assoc]
      · rw [place, split, upTo_append, bytes_append, Nat.add_assoc]
  | case3 start c cs first rest success notShorter =>
    rw [List.mem_singleton] at member
    cases member
    exact ⟨[], c :: cs, rest, rfl, rfl, success⟩
  | case4 start c cs fails ih =>
    obtain ⟨front, back, behind, shape, place, found⟩ := ih member
    refine ⟨c :: front, back, behind, ?_, ?_, found⟩
    · rw [shape, List.cons_append]
    · rw [place, bytes_cons, Nat.add_assoc]

end Searching

section Order

theorem precedes_total (first second : Text) : (precedes first second || precedes second first) = true := by
  induction first generalizing second with
  | nil => rfl
  | cons c cs ih =>
    cases second with
    | nil => simp [precedes]
    | cons d ds =>
      by_cases same : c = d
      · simpa [precedes, same] using ih ds
      · have apart : c.toNat ≠ d.toNat := fun equal => same (Char.toNat_inj.mp equal)
        simp only [precedes, same, Ne.symm same, if_false, Bool.or_eq_true, decide_eq_true_eq]
        omega

theorem precedes_antisymm {first second : Text} (early : precedes first second = true)
    (late : precedes second first = true) : first = second := by
  induction first generalizing second with
  | nil =>
    cases second with
    | nil => rfl
    | cons d ds => simp [precedes] at late
  | cons c cs ih =>
    cases second with
    | nil => simp [precedes] at early
    | cons d ds =>
      by_cases same : c = d
      · subst same
        simp only [precedes, if_true] at early late
        rw [ih early late]
      · simp only [precedes, same, Ne.symm same, if_false, decide_eq_true_eq] at early late
        omega

theorem precedes_trans {first second third : Text} (early : precedes first second = true)
    (late : precedes second third = true) : precedes first third = true := by
  induction first generalizing second third with
  | nil => rfl
  | cons c cs ih =>
    cases second with
    | nil => simp [precedes] at early
    | cons d ds =>
      cases third with
      | nil => simp [precedes] at late
      | cons e es =>
        simp only [precedes] at early late ⊢
        by_cases first : c = d
        · subst first
          by_cases second : c = e
          · subst second
            simp only [if_true] at early late ⊢
            exact ih early late
          · simpa [second] using late
        · by_cases second : d = e
          · subst second
            simpa [first] using early
          · simp only [first, second, if_false, decide_eq_true_eq] at early late
            have apart : c ≠ e := by
              rintro rfl
              omega
            simp only [apart, if_false, decide_eq_true_eq]
            omega

end Order

end RouteComments.Text
