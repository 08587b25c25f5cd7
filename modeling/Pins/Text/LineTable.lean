import Pins.Text.Position

/-!
# The table of line starts

Where the lines of a source begin is noted in a table of byte offsets. The line of an offset is
looked up there: `search` goes on with the half of the table that can still hold the offset, until
it finds it or knows between which line starts it lies. Only the characters from the start of the
line on are counted.
-/

namespace Pins.Text

/-- The byte offsets behind the line feeds of a text that stands at an offset. -/
def startsFrom : Nat → List Char → List Nat
  | _, [] => []
  | bytes, c :: rest =>
    if c = '\n' then (bytes + 1) :: startsFrom (bytes + c.utf8Size) rest
    else startsFrom (bytes + c.utf8Size) rest

/-- The byte offsets at which the lines of a source begin. -/
def lineStarts (source : List Char) : Array Nat := (0 :: startsFrom 0 source).toArray

/-- Looks for a number at the indices of a sorted table from `low` on and below `high`: either it
stands at an index, or it would have to be inserted at one. -/
def searchWithin (table : Array Nat) (wanted low high : Nat) (hhigh : high ≤ table.size) :
    Except Nat Nat :=
  if hlow : low < high then
    let middle := low + (high - low) / 2
    match compare table[middle] wanted with
    | .lt => searchWithin table wanted (middle + 1) high hhigh
    | .eq => .ok middle
    | .gt => searchWithin table wanted low middle (by omega)
  else .error low
termination_by high - low

/-- Looks for a number in a sorted table. -/
def search (table : Array Nat) (wanted : Nat) : Except Nat Nat :=
  searchWithin table wanted 0 table.size (Nat.le_refl _)

/-- The index of the line of an offset: of the line that begins there, or else of the one before the
line that its start would have to be inserted as. -/
def lineIndex (starts : Array Nat) (bytes : Nat) : Nat :=
  match search starts bytes with
  | .ok line => line
  | .error next => next - 1

/-- The characters between two byte offsets of a text. -/
def slice (start stop : Nat) (text : List Char) : List Char :=
  leading (stop - start) (behind start text)

end Pins.Text
