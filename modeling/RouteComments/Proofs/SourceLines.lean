import RouteComments.Proofs.Texts
import RouteComments.Source.Document

set_option autoImplicit false

namespace RouteComments

open Text

namespace Ending

/-- Inserted lines always break the line. -/
theorem forInsertion_breaksLine (current previous : Option Ending) :
    (forInsertion current previous).breaksLine = true := by
  unfold forInsertion
  split
  · rename_i ending found
    exact (Option.filter_eq_some_iff.mp found).2
  · cases found : previous.filter breaksLine with
    | none => rfl
    | some ending => exact (Option.filter_eq_some_iff.mp found).2

end Ending

namespace Line

theorem length_ofPieces (parts : List Text) : (ofPieces parts).length = parts.length := by
  match parts with
  | [] => rfl
  | [piece] => rfl
  | piece :: next :: rest => simp only [ofPieces, List.length_cons, length_ofPieces (next :: rest)]

/-- A text has one line more than line feeds. -/
theorem length_read (text : Text) : (read text).length = text.count '\n' + 1 := by
  rw [read, length_ofPieces, length_pieces]

theorem read_ne_nil (text : Text) : read text ≠ [] := by
  apply List.ne_nil_of_length_pos
  rw [length_read]
  exact Nat.succ_pos _

/-- A line without a line feed, and without a carriage return that its ending would take over. -/
structure Whole (line : Line) : Prop where
  unbroken : '\n' ∉ line.text
  closed : line.ending = .lf ∨ line.ending = .none → line.text.getLast? ≠ some '\r'

/-- Lines as they are read: every line but the last breaks the line, and the last does not. -/
def Canonical (lines : List Line) : Prop :=
  ∃ front last, lines = front ++ [last] ∧ (∀ line ∈ front, Whole line ∧ line.ending.breaksLine = true) ∧
    Whole last ∧ last.ending.breaksLine = false

/-- Lines with more behind them break. -/
theorem Canonical.breaks {front back : List Line} (canonical : Canonical (front ++ back)) (filled : back ≠ []) :
    ∀ line ∈ front, Whole line ∧ line.ending.breaksLine = true := by
  obtain ⟨init, last, shape, breaking, -⟩ := canonical
  have same := congrArg List.dropLast shape
  rw [List.dropLast_append_of_ne_nil filled, List.dropLast_concat] at same
  intro line member
  exact breaking line (same ▸ List.mem_append_left _ member)

theorem dropReturn?_append (text : Text) : dropReturn? (text ++ ['\r']) = some text := by
  rw [dropReturn?, if_pos List.getLast?_concat, List.dropLast_concat]

theorem dropReturn?_eq_none {text : Text} (closed : text.getLast? ≠ some '\r') : dropReturn? text = none := by
  rw [dropReturn?, if_neg closed]

theorem ofPiece_spec {piece : Text} (unbroken : '\n' ∉ piece) :
    Whole (ofPiece piece) ∧ (ofPiece piece).ending.breaksLine = true := by
  unfold ofPiece
  split
  · rename_i text found
    refine ⟨⟨fun member => unbroken ?_, fun other => by rcases other with other | other <;> cases other⟩, rfl⟩
    rw [dropReturn?_eq_some found]
    exact List.mem_append_left _ member
  · rename_i found
    refine ⟨⟨unbroken, fun _ last => ?_⟩, rfl⟩
    rw [dropReturn?, if_pos last] at found
    cases found

theorem ofLastPiece_spec {piece : Text} (unbroken : '\n' ∉ piece) :
    Whole (ofLastPiece piece) ∧ (ofLastPiece piece).ending.breaksLine = false := by
  unfold ofLastPiece
  split
  · rename_i text found
    refine ⟨⟨fun member => unbroken ?_, fun other => by rcases other with other | other <;> cases other⟩, rfl⟩
    rw [dropReturn?_eq_some found]
    exact List.mem_append_left _ member
  · rename_i found
    refine ⟨⟨unbroken, fun _ last => ?_⟩, rfl⟩
    rw [dropReturn?, if_pos last] at found
    cases found

theorem canonical_ofPieces {parts : List Text} (filled : parts ≠ []) (unbroken : ∀ piece ∈ parts, '\n' ∉ piece) :
    Canonical (ofPieces parts) := by
  match parts, filled with
  | [piece], _ =>
    obtain ⟨whole, opens⟩ := ofLastPiece_spec (unbroken piece List.mem_cons_self)
    exact ⟨[], ofLastPiece piece, rfl, fun _ member => absurd member List.not_mem_nil, whole, opens⟩
  | piece :: next :: rest, _ =>
    obtain ⟨front, last, shape, breaking, ends⟩ := canonical_ofPieces (List.cons_ne_nil next rest)
      fun other member => unbroken other (List.mem_cons_of_mem _ member)
    refine ⟨ofPiece piece :: front, last, by rw [ofPieces, shape, List.cons_append], ?_, ends⟩
    exact List.forall_mem_cons.mpr ⟨ofPiece_spec (unbroken piece List.mem_cons_self), breaking⟩

theorem canonical_read (text : Text) : Canonical (read text) :=
  canonical_ofPieces (pieces_ne_nil '\n' text) fun _ => not_mem_of_mem_pieces

theorem Canonical.whole {lines : List Line} (canonical : Canonical lines) : ∀ line ∈ lines, Whole line := by
  obtain ⟨front, last, rfl, breaking, whole, _⟩ := canonical
  intro line member
  rcases List.mem_append.mp member with member | member
  · exact (breaking line member).1
  · exact List.mem_singleton.mp member ▸ whole

/-- A line that breaks is cut off the text in front of it. -/
theorem read_append {line : Line} (whole : Whole line) (breaks : line.ending.breaksLine = true) (rest : Text) :
    read (line.text ++ line.ending.text ++ rest) = line :: read rest := by
  obtain ⟨next, others, parts⟩ := List.exists_cons_of_ne_nil (pieces_ne_nil '\n' rest)
  obtain ⟨text, ending⟩ := line
  cases ending with
  | none => cases breaks
  | cr => cases breaks
  | lf =>
    have shape : text ++ Ending.lf.text ++ rest = text ++ '\n' :: rest := by simp [Ending.text]
    rw [read, shape, pieces_append_separator, pieces_eq_singleton whole.unbroken, List.singleton_append, parts,
      ofPieces, read, parts, ofPiece, dropReturn?_eq_none (whole.closed (.inl rfl))]
  | crlf =>
    have shape : text ++ Ending.crlf.text ++ rest = (text ++ ['\r']) ++ '\n' :: rest := by simp [Ending.text]
    have unbroken : '\n' ∉ text ++ ['\r'] := by
      rw [List.mem_append]
      exact fun found => found.elim whole.unbroken (by decide)
    rw [read, shape, pieces_append_separator, pieces_eq_singleton unbroken, List.singleton_append, parts,
      ofPieces, read, parts, ofPiece, dropReturn?_append]

theorem read_last {line : Line} (whole : Whole line) (opens : line.ending.breaksLine = false) :
    read (line.text ++ line.ending.text) = [line] := by
  obtain ⟨text, ending⟩ := line
  cases ending with
  | lf => cases opens
  | crlf => cases opens
  | none =>
    rw [Ending.text, List.append_nil, read, pieces_eq_singleton whole.unbroken, ofPieces, ofLastPiece,
      dropReturn?_eq_none (whole.closed (.inr rfl))]
  | cr =>
    have unbroken : '\n' ∉ text ++ ['\r'] := by
      rw [List.mem_append]
      exact fun found => found.elim whole.unbroken (by decide)
    rw [Ending.text, read, pieces_eq_singleton unbroken, ofPieces, ofLastPiece, dropReturn?_append]

/-- Canonical lines are read back from their text. -/
theorem read_render {lines : List Line} (canonical : Canonical lines) : read (render lines) = lines := by
  obtain ⟨front, last, rfl, breaking, whole, opens⟩ := canonical
  induction front with
  | nil =>
    rw [List.nil_append, render_cons, render_nil, List.append_nil]
    exact read_last whole opens
  | cons line rest ih =>
    obtain ⟨here, others⟩ := List.forall_mem_cons.mp breaking
    rw [List.cons_append, render_cons, read_append here.1 here.2, ih others]

/-- A line of a text holds no line feed. -/
theorem not_mem_of_mem_read {text : Text} {line : Line} (member : line ∈ read text) : '\n' ∉ line.text :=
  ((canonical_read text).whole line member).unbroken

theorem mem_text_ofPiece {piece : Text} {c : Char} (member : c ∈ piece) (solid : c ≠ '\r') :
    c ∈ (ofPiece piece).text := by
  unfold ofPiece
  split
  · rename_i text found
    rw [dropReturn?_eq_some found, List.mem_append, List.mem_singleton] at member
    exact member.resolve_right solid
  · exact member

theorem mem_text_ofLastPiece {piece : Text} {c : Char} (member : c ∈ piece) (solid : c ≠ '\r') :
    c ∈ (ofLastPiece piece).text := by
  unfold ofLastPiece
  split
  · rename_i text found
    rw [dropReturn?_eq_some found, List.mem_append, List.mem_singleton] at member
    exact member.resolve_right solid
  · exact member

theorem mem_text_ofPieces {parts : List Text} {index : Nat} {piece : Text} {c : Char}
    (found : parts[index]? = some piece) (member : c ∈ piece) (solid : c ≠ '\r') :
    ∃ line, (ofPieces parts)[index]? = some line ∧ c ∈ line.text := by
  match parts, index with
  | [], _ => cases found
  | [last], 0 =>
    cases found
    exact ⟨ofLastPiece piece, rfl, mem_text_ofLastPiece member solid⟩
  | [last], index + 1 => cases found
  | first :: next :: rest, 0 =>
    cases found
    exact ⟨ofPiece piece, rfl, mem_text_ofPiece member solid⟩
  | first :: next :: rest, index + 1 =>
    rw [List.getElem?_cons_succ] at found
    obtain ⟨line, there, inside⟩ := mem_text_ofPieces found member solid
    exact ⟨line, by rw [ofPieces, List.getElem?_cons_succ, there], inside⟩

end Line

namespace Document

theorem lineFeedsBefore_le_count (bytes : Nat) (text : Text) : lineFeedsBefore bytes text ≤ text.count '\n' := by
  induction text generalizing bytes with
  | nil =>
    rw [lineFeedsBefore]
    exact Nat.zero_le _
  | cons c cs ih =>
    cases bytes with
    | zero => exact Nat.zero_le _
    | succ bytes =>
      have rest := ih (bytes + 1 - c.utf8Size)
      rw [lineFeedsBefore, List.count_cons]
      simp only [beq_iff_eq]
      omega

theorem lineOfOffset_lt (doc : Document) (offset : Nat) : doc.lineOfOffset offset < doc.lines.length := by
  have bound := lineFeedsBefore_le_count offset doc.text
  rw [lineOfOffset, lines, Line.length_read]
  omega

theorem lineFeedsBefore_append {front : Text} {offset : Nat} (beyond : bytes front ≤ offset) (back : Text) :
    lineFeedsBefore offset (front ++ back) = front.count '\n' + lineFeedsBefore (offset - bytes front) back := by
  induction front generalizing offset with
  | nil => simp
  | cons c cs ih =>
    have size := Char.utf8Size_pos c
    rw [bytes_cons] at beyond ⊢
    obtain ⟨smaller, rfl⟩ : ∃ smaller, offset = smaller + 1 := ⟨offset - 1, by omega⟩
    rw [List.cons_append, lineFeedsBefore, ih (by omega), Nat.sub_sub, List.count_cons]
    simp only [beq_iff_eq]
    omega

/-- As many lines end before a place of a text as there are line feeds. -/
theorem lineFeedsBefore_bytes (front back : Text) :
    lineFeedsBefore (bytes front) (front ++ back) = front.count '\n' := by
  have none : lineFeedsBefore 0 back = 0 := by cases back <;> rfl
  rw [lineFeedsBefore_append (Nat.le_refl _), Nat.sub_self, none, Nat.add_zero]

theorem mem_pieces_at {c separator : Char} (different : c ≠ separator) (front back : Text) :
    ∃ piece, (pieces separator (front ++ c :: back))[front.count separator]? = some piece ∧ c ∈ piece := by
  induction front with
  | nil =>
    obtain ⟨first, others, parts⟩ := List.exists_cons_of_ne_nil (pieces_ne_nil separator back)
    refine ⟨c :: first, ?_, List.mem_cons_self⟩
    rw [List.nil_append, pieces, if_neg different, parts]
    rfl
  | cons d ds ih =>
    obtain ⟨piece, found, member⟩ := ih
    rw [List.cons_append, pieces]
    by_cases isSeparator : d = separator
    · refine ⟨piece, ?_, member⟩
      rw [if_pos isSeparator, isSeparator, List.count_cons_self, List.getElem?_cons_succ, found]
    · rw [if_neg isSeparator, List.count_cons_of_ne isSeparator]
      cases parts : pieces separator (ds ++ c :: back) with
      | nil => exact absurd parts (pieces_ne_nil separator _)
      | cons first others =>
        rw [parts] at found
        cases place : ds.count separator with
        | zero =>
          rw [place] at found
          cases found
          exact ⟨d :: piece, rfl, List.mem_cons_of_mem _ member⟩
        | succ index =>
          rw [place, List.getElem?_cons_succ] at found
          exact ⟨piece, found, member⟩

/-- The line that holds the offset of a character holds the character. -/
theorem mem_line_of_split {doc : Document} {front back : Text} {c : Char} (shape : doc.text = front ++ c :: back)
    (unbroken : c ≠ '\n') (solid : c ≠ '\r') :
    ∃ line, doc.lines[doc.lineOfOffset (bytes front)]? = some line ∧ c ∈ line.text := by
  obtain ⟨piece, found, member⟩ := mem_pieces_at unbroken front back
  rw [lineOfOffset, shape, lineFeedsBefore_bytes, lines, shape]
  exact Line.mem_text_ofPieces found member solid

end Document

end RouteComments
