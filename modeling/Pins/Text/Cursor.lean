import Pins.Text.LineTable

/-!
# A cursor over a source

A cursor remembers a source, the table of its line starts and a byte offset into it. It reads the
character at the offset, the text that remains, and the places of offsets; it moves forward by any
number of bytes, also past the end.
-/

namespace Pins.Text

/-- A source together with its line starts and a byte offset. -/
structure Cursor where
  /-- The name of the source. -/
  file : String
  /-- The whole source. -/
  source : List Char
  /-- The byte offset reached. -/
  offset : Nat
  /-- The byte offset of every line start. -/
  starts : Array Nat := lineStarts source
  /-- The line starts are those of the source. -/
  starts_eq : starts = lineStarts source := by rfl

namespace Cursor

/-- The cursor at the beginning of a source. -/
def atStart (file source : String) : Cursor := { file, source := source.toList, offset := 0 }

/-- The text from the offset on. -/
def remainder (cursor : Cursor) : List Char := behind cursor.offset cursor.source

/-- The character at the offset. -/
def peek? (cursor : Cursor) : Option Char := cursor.remainder.head?

/-- No byte is left at or behind the offset. -/
def atEnd (cursor : Cursor) : Bool := byteLength cursor.source ≤ cursor.offset

/-- The cursor `bytes` bytes further on. -/
def advance (cursor : Cursor) (bytes : Nat) : Cursor :=
  { cursor with offset := cursor.offset + bytes }

/-- The place of any byte offset of the source: the line is looked up, and the characters from its
start to the offset are counted. -/
def placeOf (cursor : Cursor) (bytes : Nat) : Position :=
  let line := lineIndex cursor.starts bytes
  let front := slice (cursor.starts.getD line 0) bytes cursor.source
  ⟨line + 1, front.length + 1, cursor.file⟩

/-- The place of the cursor. -/
def position (cursor : Cursor) : Position := cursor.placeOf cursor.offset

/-- The stretch of the next `bytes` bytes. -/
def span (cursor : Cursor) (bytes : Nat) : Span :=
  ⟨cursor.position, cursor.placeOf (cursor.offset + bytes)⟩

end Cursor

end Pins.Text
