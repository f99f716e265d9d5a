/-!
# Lines of a text

A text is shown line by line. A line feed ends a line, and the end of the text ends the last one.
A carriage return right before such an end belongs to the ending and not to the line; anywhere
else it is a character like any other.

## Main definitions

* `pieces` — what stands between the line feeds of a text.
* `lines` — the lines of a text.

## Main results

* `intercalate_pieces` — the pieces with line feeds between them are the text again.
* `newline_notMem_of_mem_pieces` — no piece holds a line feed.
-/

set_option autoImplicit false

namespace Timetable.Text

/-- What stands before, between and behind the line feeds of a text. -/
def pieces : List Char → List (List Char)
  | [] => [[]]
  | c :: rest => if c = '\n' then [] :: pieces rest else (pieces rest).modifyHead (c :: ·)

/-- A line without the carriage return that may end it. -/
def withoutReturn (line : List Char) : List Char :=
  if line.getLast? = some '\r' then line.dropLast else line

/-- The lines of a text. -/
def lines (text : String) : List String :=
  (pieces text.toList).map fun piece => String.ofList (withoutReturn piece)

/-- A text always has a first line, be it an empty one. -/
theorem pieces_ne_nil (text : List Char) : pieces text ≠ [] := by
  cases text with
  | nil => simp [pieces]
  | cons c rest =>
    have := pieces_ne_nil rest
    by_cases h : c = '\n' <;> simp [pieces, h, this]

/-- The pieces with line feeds between them are the text again. -/
theorem intercalate_pieces (text : List Char) : ['\n'].intercalate (pieces text) = text := by
  induction text with
  | nil => rfl
  | cons c rest ih =>
    obtain ⟨piece, others, h⟩ := List.exists_cons_of_ne_nil (pieces_ne_nil rest)
    rw [h] at ih
    by_cases hc : c = '\n'
    · simp [pieces, hc, h, List.intercalate_cons_cons, ih]
    · cases others with
      | nil => simpa [pieces, hc, h] using ih
      | cons next others =>
        simpa [pieces, hc, h, List.intercalate_cons_cons] using ih

/-- No piece holds a line feed. -/
theorem newline_notMem_of_mem_pieces {text piece : List Char} (h : piece ∈ pieces text) :
    '\n' ∉ piece := by
  induction text generalizing piece with
  | nil => simp_all [pieces]
  | cons c rest ih =>
    obtain ⟨first, others, hr⟩ := List.exists_cons_of_ne_nil (pieces_ne_nil rest)
    simp only [hr, List.mem_cons] at ih
    by_cases hc : c = '\n'
    · simp only [pieces, hc, hr, if_true, List.mem_cons] at h
      rcases h with rfl | h
      · simp
      · exact ih h
    · simp only [pieces, hc, hr, if_false, List.modifyHead_cons, List.mem_cons] at h
      rcases h with rfl | h
      · simpa [Ne.symm hc] using ih (.inl rfl)
      · exact ih (.inr h)

end Timetable.Text
