import RouteComments.Text.Utf8

set_option autoImplicit false

namespace RouteComments.Text

/-- Bytes that lie in ranges, one in each. -/
def Within : List (UInt8 × UInt8) → List UInt8 → Prop
  | [], [] => True
  | (low, high) :: ranges, byte :: rest => low.toNat ≤ byte.toNat ∧ byte.toNat ≤ high.toNat ∧ Within ranges rest
  | _, _ => False

theorem takeWithin_isPrefix (ranges : List (UInt8 × UInt8)) (bytes : List UInt8) :
    takeWithin ranges bytes <+: bytes := by
  fun_induction takeWithin ranges bytes with
  | case1 low high ranges byte rest inside ih => exact (List.prefix_cons_inj byte).mpr ih
  | case2 low high ranges byte rest outside => exact List.nil_prefix
  | case3 ranges bytes _ => exact List.nil_prefix

theorem length_of_within {ranges : List (UInt8 × UInt8)} {found : List UInt8} (within : Within ranges found) :
    found.length = ranges.length := by
  fun_induction Within ranges found with
  | case1 => rfl
  | case2 low high ranges byte rest ih => simp [ih within.2.2]
  | case3 => exact within.elim

theorem takeWithin_append {ranges : List (UInt8 × UInt8)} {found : List UInt8} (within : Within ranges found)
    (rest : List UInt8) : takeWithin ranges (found ++ rest) = found := by
  fun_induction Within ranges found with
  | case1 => simp [takeWithin]
  | case2 low high ranges byte more ih =>
    obtain ⟨above, below, inner⟩ := within
    simp [takeWithin, UInt8.le_iff_toNat_le, above, below, ih inner]
  | case3 => exact within.elim

theorem within_takeWithin {ranges : List (UInt8 × UInt8)} {bytes : List UInt8}
    (all : (takeWithin ranges bytes).length = ranges.length) : Within ranges (takeWithin ranges bytes) := by
  fun_induction takeWithin ranges bytes with
  | case1 low high ranges byte rest inside ih =>
    simp only [Bool.and_eq_true, decide_eq_true_eq, UInt8.le_iff_toNat_le] at inside
    exact ⟨inside.1, inside.2, ih (by simpa using all)⟩
  | case2 low high ranges byte rest outside => simp at all
  | case3 ranges bytes _ =>
    rw [List.eq_nil_of_length_eq_zero (by simpa using all.symm : ranges.length = 0)]
    trivial

/-- What has to follow the first byte of a character, by the number of the byte. -/
theorem followers_eq (first : UInt8) :
    followers first =
      if 0xc2 ≤ first.toNat ∧ first.toNat ≤ 0xdf then [(0x80, 0xbf)]
      else if first.toNat = 0xe0 then [(0xa0, 0xbf), (0x80, 0xbf)]
      else if first.toNat = 0xed then [(0x80, 0x9f), (0x80, 0xbf)]
      else if 0xe1 ≤ first.toNat ∧ first.toNat ≤ 0xef then [(0x80, 0xbf), (0x80, 0xbf)]
      else if first.toNat = 0xf0 then [(0x90, 0xbf), (0x80, 0xbf), (0x80, 0xbf)]
      else if first.toNat = 0xf4 then [(0x80, 0x8f), (0x80, 0xbf), (0x80, 0xbf)]
      else if 0xf1 ≤ first.toNat ∧ first.toNat ≤ 0xf3 then [(0x80, 0xbf), (0x80, 0xbf), (0x80, 0xbf)]
      else [] := by
  simp only [followers, Bool.and_eq_true, decide_eq_true_eq, UInt8.le_iff_toNat_le, ← UInt8.toNat_inj]
  rfl

/-- The first byte of a character of several bytes, those that follow it, and its code point. -/
inductive Sequence : Nat → UInt8 → List UInt8 → Prop where
  | two {v : Nat} {a b : UInt8} (first : a.toNat = v / 64 + 192) (second : b.toNat = v % 64 + 128)
    (low : 128 ≤ v) (high : v < 2048) : Sequence v a [b]
  | three {v : Nat} {a b c : UInt8} (first : a.toNat = v / 4096 + 224) (second : b.toNat = v / 64 % 64 + 128)
    (third : c.toNat = v % 64 + 128) (low : 2048 ≤ v) (high : v < 65536) (valid : v < 55296 ∨ 57344 ≤ v) :
    Sequence v a [b, c]
  | four {v : Nat} {a b c d : UInt8} (first : a.toNat = v / 262144 + 240) (second : b.toNat = v / 4096 % 64 + 128)
    (third : c.toNat = v / 64 % 64 + 128) (fourth : d.toNat = v % 64 + 128) (low : 65536 ≤ v) (high : v < 1114112) :
    Sequence v a [b, c, d]

theorem toNat_ofNat_of_lt {n : Nat} (small : n < 256) : (UInt8.ofNat n).toNat = n := by
  rw [UInt8.toNat_ofNat']
  exact Nat.mod_eq_of_lt small

theorem ofNat_eq_of_toNat {n : Nat} {byte : UInt8} (h : byte.toNat = n) : UInt8.ofNat n = byte := by
  rw [← h, UInt8.ofNat_toNat]

/-- The bytes of a character are those of its code point. -/
theorem encodeChar_iff_sequence {c : Char} {first : UInt8} {more : List UInt8} (wide : 0x80 ≤ first.toNat) :
    String.utf8EncodeChar c = first :: more ↔ Sequence c.toNat first more := by
  have valid := c.valid
  have number : c.val.toNat = c.toNat := rfl
  rw [String.utf8EncodeChar.eq_1]
  simp only [UInt32.isValidChar, Nat.isValidChar, number] at valid ⊢
  generalize c.toNat = v at valid ⊢
  constructor
  · intro shape
    split at shape
    · obtain ⟨rfl, rfl⟩ := List.cons.inj shape
      rw [toNat_ofNat_of_lt (by omega)] at wide
      omega
    · split at shape
      · obtain ⟨rfl, rfl⟩ := List.cons.inj shape
        refine .two ?_ ?_ (by omega) (by omega)
        · rw [toNat_ofNat_of_lt (by omega)]
          omega
        · rw [toNat_ofNat_of_lt (by omega)]
      · split at shape
        · obtain ⟨rfl, rfl⟩ := List.cons.inj shape
          refine .three ?_ ?_ ?_ (by omega) (by omega) (by omega)
          · rw [toNat_ofNat_of_lt (by omega)]
            omega
          · rw [toNat_ofNat_of_lt (by omega)]
          · rw [toNat_ofNat_of_lt (by omega)]
        · obtain ⟨rfl, rfl⟩ := List.cons.inj shape
          refine .four ?_ ?_ ?_ ?_ (by omega) (by omega)
          · rw [toNat_ofNat_of_lt (by omega)]
            omega
          · rw [toNat_ofNat_of_lt (by omega)]
          · rw [toNat_ofNat_of_lt (by omega)]
          · rw [toNat_ofNat_of_lt (by omega)]
  · intro sequence
    cases sequence with
    | two ha hb low high =>
      rw [if_neg (by omega), if_pos (by omega), ofNat_eq_of_toNat (show first.toNat = v / 64 % 32 + 192 by omega),
        ofNat_eq_of_toNat hb]
    | three ha hb hc low high valid =>
      rw [if_neg (by omega), if_neg (by omega), if_pos (by omega),
        ofNat_eq_of_toNat (show first.toNat = v / 4096 % 16 + 224 by omega), ofNat_eq_of_toNat hb, ofNat_eq_of_toNat hc]
    | four ha hb hc hd low high =>
      rw [if_neg (by omega), if_neg (by omega), if_neg (by omega),
        ofNat_eq_of_toNat (show first.toNat = v / 262144 % 8 + 240 by omega), ofNat_eq_of_toNat hb,
        ofNat_eq_of_toNat hc, ofNat_eq_of_toNat hd]

theorem encodeChar_narrow {c : Char} {first : UInt8} {more : List UInt8} (narrow : ¬ 0x80 ≤ first.toNat)
    (shape : String.utf8EncodeChar c = first :: more) : more = [] ∧ Char.ofNat first.toNat = c := by
  have whole : Char.ofNat c.val.toNat = c := Char.ofNat_toNat c
  rw [String.utf8EncodeChar.eq_1] at shape
  split at shape
  · obtain ⟨rfl, rfl⟩ := List.cons.inj shape
    rw [toNat_ofNat_of_lt (by omega)]
    exact ⟨rfl, whole⟩
  · have wide {n : Nat} (low : 0x80 ≤ n) (high : n < 256) (same : UInt8.ofNat n = first) : False := by
      rw [← same, toNat_ofNat_of_lt high] at narrow
      exact narrow low
    split at shape
    · exact (wide (by omega) (by omega) (List.cons.inj shape).1).elim
    · split at shape
      · exact (wide (by omega) (by omega) (List.cons.inj shape).1).elim
      · exact (wide (by omega) (by omega) (List.cons.inj shape).1).elim

theorem codePoint_two (a b : UInt8) : codePoint a [b] = 64 * (a.toNat % 32) + b.toNat % 64 := rfl

theorem codePoint_three (a b c : UInt8) :
    codePoint a [b, c] = 64 * (64 * (a.toNat % 16) + b.toNat % 64) + c.toNat % 64 := rfl

theorem codePoint_four (a b c d : UInt8) :
    codePoint a [b, c, d] = 64 * (64 * (64 * (a.toNat % 8) + b.toNat % 64) + c.toNat % 64) + d.toNat % 64 := rfl

/-- The bytes of a character may follow its first byte. -/
theorem Sequence.within {first : UInt8} {found : List UInt8} {v : Nat} (sequence : Sequence v first found) :
    followers first ≠ [] ∧ Within (followers first) found ∧ codePoint first found = v := by
  rw [followers_eq]
  cases sequence with
  | two ha hb low high =>
    rw [if_pos (by omega), codePoint_two]
    simp [Within]
    omega
  | three ha hb hc low high valid =>
    rw [if_neg (by omega), codePoint_three]
    split
    · simp [Within]
      omega
    · split
      · simp [Within]
        omega
      · rw [if_pos (by omega)]
        simp [Within]
        omega
  | four ha hb hc hd low high =>
    rw [if_neg (by omega), if_neg (by omega), if_neg (by omega), if_neg (by omega), codePoint_four]
    split
    · simp [Within]
      omega
    · split
      · simp [Within]
        omega
      · rw [if_pos (by omega)]
        simp [Within]
        omega

theorem sequence_three {a b c : UInt8} (first : 0xe0 ≤ a.toNat ∧ a.toNat ≤ 0xef)
    (second : 0x80 ≤ b.toNat ∧ b.toNat ≤ 0xbf) (third : 0x80 ≤ c.toNat ∧ c.toNat ≤ 0xbf)
    (low : a.toNat = 0xe0 → 0xa0 ≤ b.toNat) (valid : a.toNat = 0xed → b.toNat ≤ 0x9f) :
    Sequence (codePoint a [b, c]) a [b, c] := by
  rw [codePoint_three]
  refine .three ?_ ?_ ?_ ?_ ?_ ?_ <;> omega

theorem sequence_four {a b c d : UInt8} (first : 0xf0 ≤ a.toNat ∧ a.toNat ≤ 0xf4)
    (second : 0x80 ≤ b.toNat ∧ b.toNat ≤ 0xbf) (third : 0x80 ≤ c.toNat ∧ c.toNat ≤ 0xbf)
    (fourth : 0x80 ≤ d.toNat ∧ d.toNat ≤ 0xbf) (low : a.toNat = 0xf0 → 0x90 ≤ b.toNat)
    (high : a.toNat = 0xf4 → b.toNat ≤ 0x8f) : Sequence (codePoint a [b, c, d]) a [b, c, d] := by
  rw [codePoint_four]
  refine .four ?_ ?_ ?_ ?_ ?_ ?_ <;> omega

theorem within_two {low high low' high' : UInt8} {found : List UInt8}
    (within : Within [(low, high), (low', high')] found) :
    ∃ b c, found = [b, c] ∧ (low.toNat ≤ b.toNat ∧ b.toNat ≤ high.toNat) ∧
      low'.toNat ≤ c.toNat ∧ c.toNat ≤ high'.toNat := by
  match found with
  | [] => exact within.elim
  | [b] => exact within.2.2.elim
  | [b, c] => exact ⟨b, c, rfl, ⟨within.1, within.2.1⟩, within.2.2.1, within.2.2.2.1⟩
  | b :: c :: d :: rest => exact within.2.2.2.2.elim

theorem within_three {low high low' high' low'' high'' : UInt8} {found : List UInt8}
    (within : Within [(low, high), (low', high'), (low'', high'')] found) :
    ∃ b c d, found = [b, c, d] ∧ (low.toNat ≤ b.toNat ∧ b.toNat ≤ high.toNat) ∧
      (low'.toNat ≤ c.toNat ∧ c.toNat ≤ high'.toNat) ∧ low''.toNat ≤ d.toNat ∧ d.toNat ≤ high''.toNat := by
  cases found with
  | nil => exact within.elim
  | cons b rest =>
    obtain ⟨c, d, rfl, second, third⟩ := within_two within.2.2
    exact ⟨b, c, d, rfl, ⟨within.1, within.2.1⟩, second, third⟩

/-- The bytes that may follow a first byte make a character with it. -/
theorem sequence_of_within {first : UInt8} {found : List UInt8} (filled : followers first ≠ [])
    (within : Within (followers first) found) : Sequence (codePoint first found) first found := by
  have lowest : (0x80 : UInt8).toNat = 0x80 := rfl
  have highest : (0xbf : UInt8).toNat = 0xbf := rfl
  rw [followers_eq] at filled within
  split at within
  · match found with
    | [] => exact within.elim
    | [b] =>
      obtain ⟨low, high, -⟩ := within
      rw [codePoint_two]
      refine .two ?_ ?_ ?_ ?_ <;> omega
    | b :: c :: rest => exact within.2.2.elim
  · split at within
    · obtain ⟨b, c, rfl, second, third⟩ := within_two within
      have above : (0xa0 : UInt8).toNat = 0xa0 := rfl
      apply sequence_three <;> omega
    · split at within
      · obtain ⟨b, c, rfl, second, third⟩ := within_two within
        have below : (0x9f : UInt8).toNat = 0x9f := rfl
        apply sequence_three <;> omega
      · split at within
        · obtain ⟨b, c, rfl, second, third⟩ := within_two within
          apply sequence_three <;> omega
        · split at within
          · obtain ⟨b, c, d, rfl, second, third, fourth⟩ := within_three within
            have above : (0x90 : UInt8).toNat = 0x90 := rfl
            apply sequence_four <;> omega
          · split at within
            · obtain ⟨b, c, d, rfl, second, third, fourth⟩ := within_three within
              have below : (0x8f : UInt8).toNat = 0x8f := rfl
              apply sequence_four <;> omega
            · split at within
              · obtain ⟨b, c, d, rfl, second, third, fourth⟩ := within_three within
                apply sequence_four <;> omega
              · simp_all

theorem Sequence.wide {first : UInt8} {found : List UInt8} {v : Nat} (sequence : Sequence v first found) :
    0x80 ≤ first.toNat := by
  cases sequence <;> omega

theorem firstGlyph_of_sequence {first : UInt8} {found : List UInt8} {v : Nat} (sequence : Sequence v first found)
    (rest : List UInt8) : firstGlyph first (found ++ rest) = (.char (Char.ofNat v), found.length) := by
  obtain ⟨filled, within, number⟩ := sequence.within
  have wide : ¬ first < 0x80 := by
    rw [UInt8.lt_iff_toNat_lt]
    exact Nat.not_lt.mpr sequence.wide
  simp [firstGlyph, wide, takeWithin_append within, filled, length_of_within within, number]

/-- A character is read from its bytes, whatever stands behind them. -/
theorem glyphs_encodeChar (c : Char) (rest : List UInt8) :
    glyphs (String.utf8EncodeChar c ++ rest) = .char c :: glyphs rest := by
  cases shape : String.utf8EncodeChar c with
  | nil =>
    have size := String.length_utf8EncodeChar c
    have positive := c.utf8Size_pos
    rw [shape, List.length_nil] at size
    omega
  | cons first more =>
    rw [List.cons_append, glyphs]
    by_cases wide : 0x80 ≤ first.toNat
    · rw [firstGlyph_of_sequence ((encodeChar_iff_sequence wide).mp shape)]
      simp
    · have narrow : first < 0x80 := UInt8.lt_iff_toNat_lt.mpr (Nat.not_le.mp wide)
      obtain ⟨rfl, number⟩ := encodeChar_narrow wide shape
      simp [firstGlyph, narrow, number]

theorem toNat_charOfNat {n : Nat} (valid : n.isValidChar) : (Char.ofNat n).toNat = n := by
  rw [Char.ofNat, dif_pos valid]
  rfl

theorem Sequence.valid {first : UInt8} {found : List UInt8} {v : Nat} (sequence : Sequence v first found) :
    v.isValidChar := by
  cases sequence <;> simp only [Nat.isValidChar] <;> omega

/-- What is read at the start of some bytes has the bytes that it took. -/
theorem bytes_firstGlyph (first : UInt8) (rest : List UInt8) :
    (firstGlyph first rest).1.bytes = first :: rest.take (firstGlyph first rest).2 := by
  unfold firstGlyph
  split
  · rename_i narrow
    rw [UInt8.lt_iff_toNat_lt] at narrow
    change first.toNat < 128 at narrow
    have number : (Char.ofNat first.toNat).val.toNat = first.toNat := toNat_charOfNat (.inl (by omega))
    simp only [Glyph.bytes, List.take_zero]
    rw [String.utf8EncodeChar.eq_1, number, if_pos (by omega), UInt8.ofNat_toNat]
  · have taken : rest.take (takeWithin (followers first) rest).length = takeWithin (followers first) rest :=
      (List.prefix_iff_eq_take.mp (takeWithin_isPrefix _ _)).symm
    dsimp only
    split
    · rename_i complete
      simp only [Bool.and_eq_true, Bool.not_eq_true', List.isEmpty_eq_false_iff, decide_eq_true_eq] at complete
      have sequence := sequence_of_within complete.1 (within_takeWithin complete.2)
      have number := toNat_charOfNat sequence.valid
      rw [taken, Glyph.bytes]
      exact (encodeChar_iff_sequence sequence.wide).mpr (number.symm ▸ sequence)
    · rw [taken, Glyph.bytes]

/-- No bytes are lost by reading them. -/
theorem bytes_glyphs (bytes : List UInt8) : (glyphs bytes).flatMap Glyph.bytes = bytes := by
  fun_induction glyphs bytes with
  | case1 => rfl
  | case2 first rest glyph size read ih =>
    have taken := bytes_firstGlyph first rest
    rw [read] at taken
    rw [List.flatMap_cons, ih, taken, List.cons_append, List.take_append_drop]

/-- A text is read back from its bytes. -/
theorem glyphs_encode (text : Text) : glyphs (encode text) = text.map .char := by
  induction text with
  | nil => simp [encode, glyphs]
  | cons c rest ih =>
    simp only [encode, List.flatMap_cons, List.map_cons] at ih ⊢
    rw [glyphs_encodeChar, ih]

theorem low_of_mem_followers {first : UInt8} {range : UInt8 × UInt8} (member : range ∈ followers first) :
    0x80 ≤ range.1 := by
  have all : (followers first).all (fun range => 0x80 ≤ range.1) = true := by
    unfold followers
    repeat' split
    all_goals rfl
  exact of_decide_eq_true (List.all_eq_true.mp all range member)

theorem takeWithin_append_ascii {ranges : List (UInt8 × UInt8)} (high : ∀ range ∈ ranges, 0x80 ≤ range.1)
    {stop : UInt8} (ascii : stop < 0x80) (front back : List UInt8) :
    takeWithin ranges (front ++ stop :: back) = takeWithin ranges front := by
  induction front generalizing ranges with
  | nil =>
    cases ranges with
    | nil => simp [takeWithin]
    | cons range ranges =>
      have above := high range (by simp)
      have outside : ¬ range.1 ≤ stop := by
        rw [UInt8.le_iff_toNat_le] at above ⊢
        rw [UInt8.lt_iff_toNat_lt] at ascii
        omega
      simp [takeWithin, outside]
  | cons byte rest ih =>
    cases ranges with
    | nil => simp [takeWithin]
    | cons range ranges =>
      have inner := ih fun other member => high other (List.mem_cons_of_mem range member)
      simp only [List.cons_append, takeWithin, inner]

theorem firstGlyph_append_ascii {stop : UInt8} (ascii : stop < 0x80) (first : UInt8) (front back : List UInt8) :
    firstGlyph first (front ++ stop :: back) = firstGlyph first front := by
  simp only [firstGlyph, takeWithin_append_ascii (fun _ => low_of_mem_followers) ascii]

theorem size_firstGlyph_le (first : UInt8) (rest : List UInt8) : (firstGlyph first rest).2 ≤ rest.length := by
  unfold firstGlyph
  split
  · exact Nat.zero_le _
  · exact (takeWithin_isPrefix _ _).length_le

/-- A byte of ASCII is a character of its own, whatever stands around it. -/
theorem glyphs_append_ascii {stop : UInt8} (ascii : stop < 0x80) (front back : List UInt8) :
    glyphs (front ++ stop :: back) = glyphs front ++ .char (Char.ofNat stop.toNat) :: glyphs back := by
  fun_induction glyphs front with
  | case1 => simp [glyphs, firstGlyph, ascii]
  | case2 first rest glyph size read ih =>
    have bound : size ≤ rest.length := by
      have le := size_firstGlyph_le first rest
      rwa [read] at le
    rw [List.cons_append, glyphs, firstGlyph_append_ascii ascii, read]
    simp only [List.drop_append_of_le_length bound, ih, List.cons_append]

end RouteComments.Text
