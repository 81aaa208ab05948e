set_option autoImplicit false

namespace RouteComments

/-- A text is the list of its characters. -/
abbrev Text := List Char

namespace Text

/-- The number of bytes of a text in UTF-8. -/
def bytes : Text → Nat
  | [] => 0
  | c :: cs => c.utf8Size + bytes cs

/-- The number of UTF-16 units of a text: two for a character beyond the basic plane, one for any other. -/
def units16 : Text → Nat
  | [] => 0
  | c :: cs => (if c.toNat < 0x10000 then 1 else 2) + units16 cs

@[simp] theorem bytes_nil : bytes [] = 0 := rfl

@[simp] theorem bytes_cons (c : Char) (cs : Text) : bytes (c :: cs) = c.utf8Size + bytes cs := rfl

@[simp] theorem bytes_append (a b : Text) : bytes (a ++ b) = bytes a + bytes b := by
  induction a with
  | nil => simp
  | cons c cs ih => simp [ih, Nat.add_assoc]

/-- What follows `word` in a text that starts with it. -/
def after? : Text → Text → Option Text
  | [], text => some text
  | _ :: _, [] => none
  | c :: word, d :: text => if c = d then after? word text else none

@[simp] theorem after?_nil (text : Text) : after? [] text = some text := by simp [after?]

theorem after?_eq_some_iff {word text rest : Text} :
    after? word text = some rest ↔ text = word ++ rest := by
  induction word generalizing text with
  | nil => simp
  | cons c word ih =>
    cases text with
    | nil => simp [after?]
    | cons d text =>
      by_cases same : c = d
      · simp [after?, same, ih]
      · simp only [after?, same, if_false, List.cons_append, List.cons.injEq, reduceCtorEq, false_iff,
          not_and]
        exact fun same' => absurd same'.symm same

/-- Whether `word` stands anywhere in a text. -/
def occursIn (word : Text) : Text → Bool
  | [] => word.isEmpty
  | c :: cs => (after? word (c :: cs)).isSome || occursIn word cs

def upTo (text suffix : Text) : Text :=
  text.take (text.length - suffix.length)

@[simp] theorem upTo_append (a b : Text) : upTo (a ++ b) b = a := by
  simp [upTo]

/-- The text without the characters of a class at its end. -/
def dropEndWhile (p : Char → Bool) (text : Text) : Text :=
  (text.reverse.dropWhile p).reverse

/-- The text without the characters of a class at both ends. -/
def dropAround (p : Char → Bool) (text : Text) : Text :=
  dropEndWhile p (text.dropWhile p)

section Pieces

variable {α : Type}

/-- Puts an item in front of the first list of a list. -/
def consFirst (a : α) : List (List α) → List (List α)
  | [] => [[a]]
  | t :: ts => (a :: t) :: ts

/-- The pieces of a list between the occurrences of a separator; there is always one. -/
def pieces [DecidableEq α] (separator : α) : List α → List (List α)
  | [] => [[]]
  | a :: as => if a = separator then [] :: pieces separator as else consFirst a (pieces separator as)

def joinWith (separator : List α) : List (List α) → List α
  | [] => []
  | [t] => t
  | t :: u :: ts => t ++ separator ++ joinWith separator (u :: ts)

@[simp] theorem consFirst_ne_nil (a : α) (ts : List (List α)) : consFirst a ts ≠ [] := by
  cases ts <;> simp [consFirst]

@[simp] theorem pieces_ne_nil [DecidableEq α] (separator : α) (text : List α) :
    pieces separator text ≠ [] := by
  cases text with
  | nil => simp [pieces]
  | cons c cs =>
    by_cases isSeparator : c = separator
    · simp [pieces, isSeparator]
    · simp [pieces, isSeparator]

theorem joinWith_consFirst (separator : List α) (a : α) (ts : List (List α)) :
    joinWith separator (consFirst a ts) = a :: joinWith separator ts := by
  match ts with
  | [] => rfl
  | [t] => rfl
  | t :: u :: us => rfl

/-- Joining the pieces of a list gives the list back. -/
theorem joinWith_pieces [DecidableEq α] (separator : α) (text : List α) :
    joinWith [separator] (pieces separator text) = text := by
  induction text with
  | nil => rfl
  | cons c cs ih =>
    by_cases isSeparator : c = separator
    · cases parts : pieces separator cs with
      | nil => exact absurd parts (pieces_ne_nil separator cs)
      | cons p ps =>
        rw [parts] at ih
        simp [pieces, isSeparator, parts, joinWith, ih]
    · simp [pieces, isSeparator, joinWith_consFirst, ih]

theorem length_flatten_le_joinWith (separator : List α) (ts : List (List α)) :
    ts.flatten.length ≤ (joinWith separator ts).length := by
  induction ts with
  | nil => simp [joinWith]
  | cons t ts ih =>
    cases ts with
    | nil => simp [joinWith]
    | cons u us =>
      simp only [joinWith, List.length_append, List.flatten_cons] at ih ⊢
      omega

/-- Joining fewer lists leaves out at least the items of the others. -/
theorem length_joinWith_append (separator : List α) (as bs : List (List α)) :
    (joinWith separator as).length + bs.flatten.length ≤ (joinWith separator (as ++ bs)).length := by
  induction as with
  | nil => simpa [joinWith] using length_flatten_le_joinWith separator bs
  | cons a as ih =>
    cases as with
    | nil =>
      cases bs with
      | nil => simp [joinWith]
      | cons b bs =>
        have h := length_flatten_le_joinWith separator (b :: bs)
        simp only [List.cons_append, List.nil_append, joinWith, List.length_append] at h ⊢
        omega
    | cons c cs =>
      simp only [List.cons_append, joinWith, List.length_append] at ih ⊢
      omega

end Pieces

/-- Lexicographic order by code point. -/
def precedes : Text → Text → Bool
  | [], _ => true
  | _ :: _, [] => false
  | c :: cs, d :: ds => if c = d then precedes cs ds else c.toNat < d.toNat

/-- The first success of a reader, tried at every place of a text from the left. -/
def firstMatch? {α : Type} (read : Text → Option α) : Text → Option α
  | [] => read []
  | c :: cs =>
    match read (c :: cs) with
    | some found => some found
    | none => firstMatch? read cs

/-- All successes of a reader from the left, each with its byte offset. The search goes on behind what was
read, or one character further where nothing was read; a reading that consumes nothing is the last. -/
def matchesFrom {α : Type} (read : Text → Option (α × Text)) (offset : Nat) (text : Text) :
    List (Nat × α) :=
  match text with
  | [] => []
  | c :: cs =>
    match read (c :: cs) with
    | some (found, rest) =>
      if rest.length ≤ cs.length then
        (offset, found) :: matchesFrom read (offset + bytes (upTo (c :: cs) rest)) rest
      else [(offset, found)]
    | none => matchesFrom read (offset + c.utf8Size) cs
termination_by text.length

/-- All successes of a reader from the left that do not overlap. -/
def allMatches {α : Type} (read : Text → Option (α × Text)) (text : Text) : List α :=
  (matchesFrom read 0 text).map Prod.snd

/-- Applies a reader as often as it succeeds and shortens the text; gives what is left. -/
def skipAll (read : Text → Option Text) (text : Text) : Text :=
  match read text with
  | some rest => if rest.length < text.length then skipAll read rest else text
  | none => text
termination_by text.length

/-- Whether a code point lies in one of some closed ranges. -/
def inRanges (ranges : List (Nat × Nat)) (code : Nat) : Bool :=
  ranges.any fun (low, high) => low ≤ code && code ≤ high

/-- The text of a number in decimal digits. -/
def ofNat (n : Nat) : Text :=
  Nat.toDigits 10 n

/-- Lower case of the ASCII letters; every other character stays. -/
def asciiLower (text : Text) : Text :=
  text.map Char.toLower

end Text

end RouteComments
