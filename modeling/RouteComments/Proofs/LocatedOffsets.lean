import Mathlib.Data.List.Basic
import RouteComments.Proofs.SourceLines

set_option autoImplicit false

namespace RouteComments

open Text

namespace Line

/-- The characters of a line with its terminator. -/
def span (line : Line) : Text :=
  line.text ++ line.ending.text

/-- Whether the line at an index holds a byte offset of the text: the offset is behind the lines above and before the
end of the terminator. -/
def Holds (lines : List Line) (index offset : Nat) : Prop :=
  ∃ line, lines[index]? = some line ∧ bytes (render (lines.take index)) ≤ offset ∧
    offset < bytes (render (lines.take index)) + bytes line.span

theorem render_cons_eq_span (line : Line) (rest : List Line) : render (line :: rest) = line.span ++ render rest := rfl

theorem holds_cons_zero {line : Line} {rest : List Line} {offset : Nat} :
    Holds (line :: rest) 0 offset ↔ offset < bytes line.span := by
  simp [Holds]

theorem holds_cons_succ {line : Line} {rest : List Line} {index offset : Nat} :
    Holds (line :: rest) (index + 1) offset ↔
      bytes line.span ≤ offset ∧ Holds rest index (offset - bytes line.span) := by
  simp only [Holds, List.getElem?_cons_succ, List.take_succ_cons, render_cons_eq_span, bytes_append]
  constructor
  · rintro ⟨found, there, above, before⟩
    exact ⟨by omega, found, there, by omega, by omega⟩
  · rintro ⟨passed, found, there, above, before⟩
    exact ⟨found, there, by omega, by omega⟩

/-- The spans of the lines leave out no offset of the text. -/
theorem exists_holds {lines : List Line} {offset : Nat} (inside : offset < bytes (render lines)) :
    ∃ index, Holds lines index offset := by
  induction lines generalizing offset with
  | nil => simp at inside
  | cons line rest ih =>
    rw [render_cons_eq_span, bytes_append] at inside
    by_cases here : offset < bytes line.span
    · exact ⟨0, holds_cons_zero.mpr here⟩
    · obtain ⟨index, holds⟩ := ih (show offset - bytes line.span < bytes (render rest) by omega)
      exact ⟨index + 1, holds_cons_succ.mpr ⟨by omega, holds⟩⟩

/-- What holds an offset of some lines holds it among more lines as well. -/
theorem Holds.append {shared : List Line} {index offset : Nat} (holds : Holds shared index offset)
    (front back : List Line) :
    Holds (front ++ (shared ++ back)) (front.length + index) (bytes (render front) + offset) := by
  obtain ⟨line, found, above, before⟩ := holds
  have inside := (List.getElem?_eq_some_iff.mp found).1
  have taken : (front ++ (shared ++ back)).take (front.length + index) = front ++ shared.take index := by
    rw [List.take_length_add_append, List.take_append_of_le_length (Nat.le_of_lt inside)]
  refine ⟨line, ?_, ?_, ?_⟩
  · rw [List.getElem?_append_right (Nat.le_add_right _ _), Nat.add_sub_cancel_left, List.getElem?_append_left inside,
      found]
  · rw [taken, render_append, bytes_append]
    omega
  · rw [taken, render_append, bytes_append]
    omega

/-- A line that breaks ends in its only line feed. -/
theorem exists_span_of_breaks {line : Line} (whole : Whole line) (breaks : line.ending.breaksLine = true) :
    ∃ body, line.span = body ++ ['\n'] ∧ '\n' ∉ body := by
  obtain ⟨text, ending⟩ := line
  cases ending with
  | none => cases breaks
  | cr => cases breaks
  | lf => exact ⟨text, rfl, whole.unbroken⟩
  | crlf =>
    refine ⟨text ++ ['\r'], by simp [span, Ending.text], ?_⟩
    rw [List.mem_append]
    exact fun member => member.elim whole.unbroken (by decide)

/-- Lines that break end in a line feed. -/
theorem getLast?_render {lines : List Line}
    (breaking : ∀ line ∈ lines, Whole line ∧ line.ending.breaksLine = true) :
    ∀ c ∈ (render lines).getLast?, c = '\n' := by
  rcases List.eq_nil_or_concat' lines with rfl | ⟨front, line, rfl⟩
  · exact fun c none => absurd none (Option.not_mem_none c)
  · obtain ⟨whole, breaks⟩ := breaking line (List.mem_append_right _ List.mem_cons_self)
    obtain ⟨body, ends, -⟩ := exists_span_of_breaks whole breaks
    intro c last
    rw [render_append, render_cons_eq_span, render_nil, List.append_nil, ends, ← List.append_assoc,
      List.getLast?_concat] at last
    cases last
    rfl

theorem unbroken_span_of_opens {line : Line} (whole : Whole line) (opens : line.ending.breaksLine = false) :
    '\n' ∉ line.span := by
  obtain ⟨text, ending⟩ := line
  rw [span, List.mem_append]
  cases ending with
  | lf => cases opens
  | crlf => cases opens
  | none => exact fun member => member.elim whole.unbroken (by simp [Ending.text])
  | cr => exact fun member => member.elim whole.unbroken (by simp [Ending.text])

end Line

namespace Document

theorem lineFeedsBefore_eq_zero {front : Text} {offset : Nat} (unbroken : '\n' ∉ front) (inside : offset ≤ bytes front)
    (back : Text) : lineFeedsBefore offset (front ++ back) = 0 := by
  induction front generalizing offset with
  | nil =>
    rw [bytes_nil, Nat.le_zero] at inside
    subst inside
    cases back <;> rfl
  | cons c cs ih =>
    obtain ⟨different, others⟩ := List.ne_and_not_mem_of_not_mem_cons unbroken
    cases offset with
    | zero => rfl
    | succ smaller =>
      rw [bytes_cons] at inside
      rw [List.cons_append, lineFeedsBefore, if_neg different.symm, ih others (by omega)]

/-- Counting line feeds finds the line that holds an offset. -/
theorem lineFeedsBefore_of_holds {lines : List Line} {index offset : Nat} (canonical : Line.Canonical lines)
    (holds : Line.Holds lines index offset) : lineFeedsBefore offset (Line.render lines) = index := by
  obtain ⟨front, last, rfl, breaking, whole, opens⟩ := canonical
  -- by induction over the lines that break; the offset is counted from the line that is left
  induction front generalizing index offset with
  | nil =>
    cases index with
    | zero =>
      have inside := Nat.le_of_lt (Line.holds_cons_zero.mp holds)
      exact lineFeedsBefore_eq_zero (Line.unbroken_span_of_opens whole opens) inside []
    | succ index =>
      obtain ⟨-, found, there, -⟩ := Line.holds_cons_succ.mp holds
      cases there
  | cons line rest ih =>
    obtain ⟨first, others⟩ := List.forall_mem_cons.mp breaking
    obtain ⟨body, ended, unbroken⟩ := Line.exists_span_of_breaks first.1 first.2
    rw [List.cons_append, Line.render_cons_eq_span]
    cases index with
    | zero =>
      have inside := Line.holds_cons_zero.mp holds
      have feed : bytes ['\n'] = 1 := by decide
      rw [ended, bytes_append, feed] at inside
      rw [ended, List.append_assoc]
      exact lineFeedsBefore_eq_zero unbroken (Nat.le_of_lt_succ inside) _
    | succ index =>
      obtain ⟨passed, holdsRest⟩ := Line.holds_cons_succ.mp holds
      have feeds : line.span.count '\n' = 1 := by
        rw [ended, List.count_append, List.count_eq_zero_of_not_mem unbroken]
        rfl
      rw [lineFeedsBefore_append passed, feeds, ih holdsRest others, Nat.add_comm]

theorem lineOfOffset_of_holds {doc : Document} {index offset : Nat} (holds : Line.Holds doc.lines index offset) :
    doc.lineOfOffset offset = index := by
  have found := lineFeedsBefore_of_holds (Line.canonical_read doc.text) holds
  rwa [Line.render_read] at found

/-- Of the offsets behind the text all are in the last line. -/
theorem lineOfOffset_of_le {doc : Document} {offset : Nat} (behind : bytes doc.text ≤ offset) :
    doc.lineOfOffset offset = doc.lines.length - 1 := by
  have whole := lineFeedsBefore_append behind []
  have none : lineFeedsBefore (offset - bytes doc.text) [] = 0 := by rw [lineFeedsBefore]
  rw [List.append_nil, none, Nat.add_zero] at whole
  rw [lineOfOffset, whole, lines, Line.length_read, Nat.add_sub_cancel]

theorem holds_iff_lineOfOffset_eq {doc : Document} {offset : Nat} (inside : offset < bytes doc.text) (index : Nat) :
    Line.Holds doc.lines index offset ↔ doc.lineOfOffset offset = index := by
  refine ⟨lineOfOffset_of_holds, ?_⟩
  rintro rfl
  rw [← Line.render_read doc.text] at inside
  obtain ⟨index, holds⟩ := Line.exists_holds inside
  rw [lineOfOffset_of_holds holds]
  exact holds

/-- Texts and canonical lines determine each other: the lines of a text are canonical and render to it, and canonical
lines are those of their text. The line of an offset in the text is the only one that holds it, and all larger offsets
are in the last line. -/
theorem lines_correspond_and_locate (doc : Document) :
    (Line.render doc.lines = doc.text ∧ Line.Canonical doc.lines) ∧
      (∀ lines, Line.Canonical lines → { doc with text := Line.render lines }.lines = lines) ∧
      (∀ offset, offset < bytes doc.text →
        ∀ index, Line.Holds doc.lines index offset ↔ doc.lineOfOffset offset = index) ∧
      ∀ offset, bytes doc.text ≤ offset → doc.lineOfOffset offset = doc.lines.length - 1 :=
  ⟨⟨Line.render_read doc.text, Line.canonical_read doc.text⟩, fun _ => Line.read_render,
    fun _ => holds_iff_lineOfOffset_eq, fun _ => lineOfOffset_of_le⟩

/-- An offset inside the two bytes of a letter is in its line, as is the line feed behind it; the carriage return that
ends the text is in the last line, and so is every offset behind it. -/
theorem mixedEndings_located :
    let doc : Document := { path := [], text := "é\r\n\nb\r".toList }
    doc.lines = [⟨"é".toList, .crlf⟩, ⟨[], .lf⟩, ⟨"b".toList, .cr⟩] ∧ Line.Holds doc.lines 0 1 ∧
      Line.Holds doc.lines 0 3 ∧ Line.Holds doc.lines 1 4 ∧ Line.Holds doc.lines 2 6 ∧ doc.lineOfOffset 99 = 2 := by
  intro doc
  obtain ⟨-, -, located, beyond⟩ := lines_correspond_and_locate doc
  exact ⟨by decide, (located 1 (by decide) 0).mpr (by decide), (located 3 (by decide) 0).mpr (by decide),
    (located 4 (by decide) 1).mpr (by decide), (located 6 (by decide) 2).mpr (by decide), beyond 99 (by decide)⟩

end Document

end RouteComments
