import Pins.Syntax.Arena

/-!
# Showing a tree

A subtree is shown with one line per node: its number, its description and its stretch of source,
indented by its depth.
-/

namespace Pins

/-- A line at a depth of nesting. -/
structure IndentedLine where
  /-- How deep the line is nested. -/
  depth : Nat
  /-- What the line says. -/
  text : String
deriving DecidableEq, Repr

namespace IndentedLine

/-- The written form: two spaces per level, the text, and a line feed. -/
def render (line : IndentedLine) : String :=
  String.ofList (List.replicate (2 * line.depth) ' ') ++ line.text ++ "\n"

/-- The written form of lines one below the other. -/
def renderAll (lines : List IndentedLine) : String := String.join (lines.map render)

end IndentedLine

namespace Arena

/-- The lines of the subtree of a node that stands at a depth, down to `fuel` levels. -/
def dumpWithin (arena : Arena) : Nat → Nat → NodeId → List IndentedLine
  | 0, _, _ => []
  | fuel + 1, depth, id =>
    let children := ((arena.kind? id).map NodeKind.children).getD []
    ⟨depth, id.text ++ " " ++ arena.describe id ++ " [" ++ (arena.span id).text ++ "]"⟩ ::
      children.flatMap (arena.dumpWithin fuel (depth + 1))

/-- The lines of the subtree of a node. -/
def dumpLines (arena : Arena) (id : NodeId) : List IndentedLine :=
  arena.dumpWithin arena.depthBound 0 id

/-- The subtree of a node as text. -/
def dump (arena : Arena) (id : NodeId) : String := IndentedLine.renderAll (arena.dumpLines id)

end Arena

end Pins
