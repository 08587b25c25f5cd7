import Pins.Frame.Access
import Pins.Frame.Basic
import Pins.Ir.Printing
import Pins.Text.Literal

/-!
# Chunks

A compilation yields chunks: the code of a function, the characters of a string literal, or the
storage of a top-level variable.
-/

namespace Pins

/-- A unit of output. -/
inductive Chunk where
  /-- The code of a function, which leaves its result at the frame pointer. -/
  | code (frame : Frame) (body : Ir.Stmt)
  /-- The characters of a string literal. -/
  | data (access : Access) (value : String)
  /-- The storage of a top-level variable. -/
  | global (access : Access)

/-- The written form of a chunk. A string literal is printed as a program would write it. -/
def Chunk.text : Chunk → String
  | code frame body => frame.text ++ "\n" ++ IndentedLine.renderAll (body.lines 1)
  | data access value =>
    "DATA " ++ access.text ++ " '" ++ String.ofList (Text.Literal.double value.toList) ++ "'\n"
  | global access => "GLOBAL " ++ access.text ++ "\n"

end Pins
