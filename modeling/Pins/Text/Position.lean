/-!
# Places in a text

A place is counted in lines and in characters of a line, both from one. Only a line feed ends a
line. Offsets into a text are counted in bytes of its UTF-8 form; `locate` turns an offset
into a place by walking the characters before it, so two neighbouring stretches of text meet in
one place (`past_append`).
-/

namespace Pins.Text

/-- A place in a named source, counted from line 1 and column 1. -/
structure Position where
  /-- The line, the first one being 1. -/
  line : Nat
  /-- The column in characters, the first one being 1. -/
  column : Nat
  /-- The name of the source. -/
  file : String
deriving DecidableEq, Repr

namespace Position

/-- The place where a source begins. -/
def origin (file : String) : Position := ⟨1, 1, file⟩

/-- The place behind one character: a line feed opens the next line. -/
def next (place : Position) (c : Char) : Position :=
  if c = '\n' then ⟨place.line + 1, 1, place.file⟩
  else ⟨place.line, place.column + 1, place.file⟩

/-- The place behind a stretch of characters. -/
def past (place : Position) (text : List Char) : Position := text.foldl next place

@[simp] theorem past_nil (place : Position) : place.past [] = place := rfl

@[simp] theorem past_cons (place : Position) (c : Char) (text : List Char) :
    place.past (c :: text) = (place.next c).past text := rfl

theorem past_append (place : Position) (first second : List Char) :
    place.past (first ++ second) = (place.past first).past second :=
  List.foldl_append

/-- The written form, `file:line:column`. -/
def text (place : Position) : String :=
  place.file ++ ":" ++ toString place.line ++ ":" ++ toString place.column

end Position

/-- The stretch between two places of one source. -/
structure Span where
  /-- The place of the first character. -/
  start : Position
  /-- The place behind the last character. -/
  stop : Position
deriving DecidableEq, Repr

namespace Span

/-- The empty stretch at a place. -/
def empty (place : Position) : Span := ⟨place, place⟩

/-- The stretch from the start of the first to the end of the second. -/
def through (first second : Span) : Span := ⟨first.start, second.stop⟩

/-- The written form, `line:column-line:column`. -/
def text (span : Span) : String :=
  toString span.start.line ++ ":" ++ toString span.start.column ++ "-" ++
    toString span.stop.line ++ ":" ++ toString span.stop.column

end Span

/-- The characters that lie wholly within the first `bytes` bytes of a text. -/
def leading : Nat → List Char → List Char
  | _, [] => []
  | bytes, c :: rest =>
    if c.utf8Size ≤ bytes then c :: leading (bytes - c.utf8Size) rest else []

/-- The text behind its first `bytes` bytes. -/
def behind : Nat → List Char → List Char
  | _, [] => []
  | bytes, c :: rest =>
    if c.utf8Size ≤ bytes then behind (bytes - c.utf8Size) rest else c :: rest

/-- The number of bytes of a text. -/
def byteLength : List Char → Nat
  | [] => 0
  | c :: rest => c.utf8Size + byteLength rest

theorem byteLength_append (first second : List Char) :
    byteLength (first ++ second) = byteLength first + byteLength second := by
  induction first with
  | nil => simp [byteLength]
  | cons c rest ih => simp [byteLength, ih, Nat.add_assoc]

theorem leading_append_behind (bytes : Nat) (text : List Char) :
    leading bytes text ++ behind bytes text = text := by
  induction text generalizing bytes with
  | nil => rfl
  | cons c rest ih =>
    by_cases fits : c.utf8Size ≤ bytes
    · simp [leading, behind, fits, ih]
    · simp [leading, behind, fits]

/-- The place of the byte offset `bytes` in a source. -/
def locate (file : String) (source : List Char) (bytes : Nat) : Position :=
  (Position.origin file).past (leading bytes source)

end Pins.Text
