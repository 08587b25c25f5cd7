import Pins.Text.Blank

/-!
# Lines of a source

A source has one line more than it has line feeds. A line is shown without the carriage returns
that stand before its line feed.
-/

namespace Pins.Text

/-- The lines of a text, split at every line feed. -/
def lines : List Char → List (List Char)
  | [] => [[]]
  | c :: rest =>
    if c = '\n' then [] :: lines rest
    else match lines rest with
      | [] => [[c]]
      | first :: others => (c :: first) :: others

/-- A text has at least one line. -/
theorem lines_ne_nil (text : List Char) : lines text ≠ [] := by
  cases text with
  | nil => simp [lines]
  | cons c rest =>
    by_cases feed : c = '\n'
    · simp [lines, feed]
    · simp only [lines, feed, if_false]
      split <;> simp

/-- The line of a given number, counted from 1, without trailing carriage returns. -/
def line? (source : List Char) : Nat → Option (List Char)
  | 0 => none
  | number + 1 => ((lines source)[number]?).map (trimEnd (· == '\r'))

end Pins.Text
