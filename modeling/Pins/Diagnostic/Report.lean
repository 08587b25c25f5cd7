import Pins.Text.Line
import Pins.Diagnostic

/-!
# Showing a diagnostic

A report names the fault, gives the place and, when the source has that line, prints the line
without its indentation over a marker that ends in a caret below the column of the place.

    Error: UndefinedSymbol (`x` is not defined)
    -> main.pins:3:20
      |
    3 | fun f(): integer = x
      | -------------------^
-/

namespace Pins.Diagnostic

open Text

/-- A text filled up with spaces in front to a width. -/
def padLeft (width : Nat) (text : String) : String :=
  String.ofList (List.replicate (width - text.length) ' ') ++ text

/-- The number of dashes and caret below a column, when so many characters of indentation were
removed from the line: at least the caret. -/
def markerWidth (column removed : Nat) : Nat := max (column - removed) 1

/-- The marker: dashes up to the caret. -/
def marker (width : Nat) : String := String.ofList (List.replicate (width - 1) '-') ++ "^"

/-- The lines of a report that name the fault and its place. -/
def heading (diagnostic : Diagnostic) : List String :=
  let title := match diagnostic.fault.tip? with
    | none => "Error: " ++ diagnostic.fault.name
    | some tip => "Error: " ++ diagnostic.fault.name ++ " (" ++ tip ++ ")"
  [title, "-> " ++ diagnostic.position.text]

/-- The lines of a report that show a source line and the marker. -/
def excerpt (position : Position) (line : List Char) : List String :=
  let number := toString position.line
  let bar := padLeft (number.length + 2) "|"
  let removed := (line.takeWhile isIndent).length
  let shown := trimEnd isBlank (line.dropWhile isIndent)
  [bar, number ++ " | " ++ String.ofList shown,
    bar ++ " " ++ marker (markerWidth position.column removed)]

/-- The lines of the report on a diagnostic of a source. -/
def reportLines (diagnostic : Diagnostic) (source : List Char) : List String :=
  diagnostic.heading ++
    match line? source diagnostic.position.line with
    | none => []
    | some line => excerpt diagnostic.position line

/-- The report on a diagnostic of a source, every line ended by a line feed. -/
def report (diagnostic : Diagnostic) (source : String) : String :=
  String.join ((diagnostic.reportLines source.toList).map (· ++ "\n"))

end Pins.Diagnostic
