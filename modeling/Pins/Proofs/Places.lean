import Mathlib.Data.List.Count
import Pins.Text.Line
import Pins.Text.Position

/-!
# Places of a source

A byte offset between two characters of a source, or at one of its ends, is a boundary
(`IsBoundary`), and the places of a source are those of its boundaries (`IsPlace`). What is found by
walking over the characters in front is such a place, and every place lies in a line that the source
has (`IsPlace.isSome_line?`).
-/

namespace Pins.Text

variable {file : String} {source front back text : List Char} {place : Position} {bytes : Nat}

/-- The offset `bytes` stands between two characters of a text, or at one of its ends. -/
def IsBoundary (source : List Char) (bytes : Nat) : Prop :=
  ∃ front back, source = front ++ back ∧ bytes = byteLength front

/-- A place lies at a boundary of a named source. -/
def IsPlace (file : String) (source : List Char) (place : Position) : Prop :=
  ∃ bytes, IsBoundary source bytes ∧ place = locate file source bytes

/-- No boundary lies behind the end. -/
theorem IsBoundary.le (h : IsBoundary source bytes) : bytes ≤ byteLength source := by
  obtain ⟨front, back, rfl, rfl⟩ := h
  rw [byteLength_append]
  exact Nat.le_add_right _ _

/-- No character lies wholly within no bytes. -/
@[simp] theorem leading_zero (text : List Char) : leading 0 text = [] := by
  cases text with
  | nil => rfl
  | cons c rest =>
    have hpos := c.utf8Size_pos
    simp only [leading]
    rw [if_neg (by omega)]

/-- The characters within the bytes of a beginning are the beginning. -/
theorem leading_byteLength (front back : List Char) :
    leading (byteLength front) (front ++ back) = front := by
  induction front with
  | nil => exact leading_zero back
  | cons c rest ih => simp [leading, byteLength, ih]

/-- The place behind a beginning is reached by walking over it. -/
theorem locate_byteLength (file : String) (front back : List Char) :
    locate file (front ++ back) (byteLength front) = (Position.origin file).past front := by
  rw [locate, leading_byteLength]

/-- Walking over a beginning of a source leads to one of its places. -/
theorem isPlace_past (file : String) (front back : List Char) :
    IsPlace file (front ++ back) ((Position.origin file).past front) :=
  ⟨byteLength front, ⟨front, back, rfl, rfl⟩, (locate_byteLength file front back).symm⟩

/-- Walking on does not leave the source. -/
@[simp] theorem Position.file_past (place : Position) (text : List Char) :
    (place.past text).file = place.file := by
  induction text generalizing place with
  | nil => rfl
  | cons c rest ih =>
    rw [past_cons, ih, next]
    split <;> rfl

/-- Walking on leads as many lines down as there are line feeds. -/
theorem Position.line_past (place : Position) (text : List Char) :
    (place.past text).line = place.line + text.count '\n' := by
  induction text generalizing place with
  | nil => rfl
  | cons c rest ih =>
    rw [past_cons, ih, next]
    by_cases feed : c = '\n'
    · subst feed
      rw [if_pos rfl, List.count_cons_self]
      dsimp only
      omega
    · rw [if_neg feed, List.count_cons_of_ne feed]

/-- A text has one line more than it has line feeds. -/
theorem length_lines (text : List Char) : (lines text).length = text.count '\n' + 1 := by
  induction text with
  | nil => rfl
  | cons c rest ih =>
    by_cases feed : c = '\n'
    · simp [lines, feed, ih]
    · obtain ⟨first, others, hlines⟩ := List.exists_cons_of_ne_nil (lines_ne_nil rest)
      rw [hlines] at ih
      simpa [lines, feed, hlines] using ih

/-- A source has the lines from the first one to the last one. -/
theorem isSome_line?_iff {number : Nat} :
    (line? source number).isSome ↔ 0 < number ∧ number ≤ source.count '\n' + 1 := by
  rw [← length_lines]
  cases number with
  | zero => simp [line?]
  | succ number =>
    rw [line?, Option.isSome_map, isSome_getElem?]
    omega

namespace IsPlace

/-- A place of a source is a place in it. -/
theorem file_eq (h : IsPlace file source place) : place.file = file := by
  obtain ⟨bytes, _, rfl⟩ := h
  exact Position.file_past _ _

/-- A place of a source lies in one of its lines. -/
theorem isSome_line? (h : IsPlace file source place) : (line? source place.line).isSome := by
  obtain ⟨bytes, _, rfl⟩ := h
  have hle : (leading bytes source).count '\n' ≤ source.count '\n' := by
    conv => rhs; rw [← leading_append_behind bytes source, List.count_append]
    exact Nat.le_add_right _ _
  rw [isSome_line?_iff, locate, Position.line_past]
  simp only [Position.origin]
  omega

end IsPlace

end Pins.Text
