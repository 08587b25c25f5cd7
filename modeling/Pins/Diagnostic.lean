import Pins.Text.Position
import Pins.Diagnostic.Fault

/-!
# Diagnostics and passes

A diagnostic is a fault at a place. A pass is a computation that reads and changes a state and may
stop with a diagnostic; the state reached up to then is kept, so that a caller can go on from it.
-/

namespace Pins

/-- A fault and the place it is reported at. -/
structure Diagnostic where
  /-- What is wrong. -/
  fault : Fault
  /-- Where. -/
  position : Text.Position
deriving DecidableEq, Repr

/-- The written form: the place, a colon and the message of the fault. -/
def Diagnostic.text (diagnostic : Diagnostic) : String :=
  diagnostic.position.text ++ ": " ++ diagnostic.fault.message

/-- A computation over a state `σ` that may stop with a diagnostic and then keeps its state. -/
abbrev Pass (σ α : Type) := EStateM Diagnostic σ α

namespace Pass

/-- Changes the state behind a computation, whether it stopped with a diagnostic or not. -/
def leaving {σ α : Type} (change : σ → σ) (pass : Pass σ α) : Pass σ α := fun state =>
  match pass state with
  | .ok value after => .ok value (change after)
  | .error diagnostic after => .error diagnostic (change after)

/-- The state at the end of a computation from a given state, or the diagnostic that stopped it. -/
def finalState {σ α : Type} (pass : Pass σ α) (state : σ) : Except Diagnostic σ :=
  match pass state with
  | .ok _ after => .ok after
  | .error diagnostic _ => .error diagnostic

end Pass

end Pins
