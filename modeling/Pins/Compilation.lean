import Pins.Binding
import Pins.Lowering
import Pins.Syntax.Parser
import Pins.Token.Lexer
import Pins.Typing

/-!
# Compiling a program

A compilation runs the passes one behind the other: reading, binding, typing, layout and lowering.
The first diagnostic of any pass ends it.
-/

namespace Pins

/-- Everything known about a program that was lowered. -/
structure Compilation where
  /-- The program with what the passes before lowering found out about it. -/
  program : Lowering.Program
  /-- The intermediate code of expressions and functions. -/
  trees : NodeTable Ir.Tree
  /-- The chunks in the order in which they were met. -/
  chunks : Array Chunk

namespace Compilation

/-- Compiles a program that was read. -/
def ofArena (arena : Arena) : Except Diagnostic Compilation := do
  let bindings ← Binding.ofArena arena
  let types ← Typing.ofArena arena bindings
  let (layout, labels) ← Layout.ofArena arena bindings types .full
  let program : Lowering.Program := ⟨arena, bindings, types, layout⟩
  let (trees, chunks) ← Lowering.ofProgram program labels
  return ⟨program, trees, chunks⟩

/-- Compiles a named source. -/
def ofSource (file source : String) : Except Diagnostic Compilation := do
  let tokens ← tokenize file source
  let arena ← parse file tokens
  ofArena arena

end Compilation

end Pins
