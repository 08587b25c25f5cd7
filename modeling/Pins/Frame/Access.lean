import Pins.Frame.Label

/-!
# Accesses

An access says where the value of a definition is kept: under a label of its own, or at an offset
from the frame pointer of the function at a static level.
-/

namespace Pins

/-- Where the value of a definition is kept, and how many bytes it takes. -/
inductive Access where
  /-- Under a label. -/
  | global (size : Nat) (label : Label)
  /-- Among the locals of the function at a level. -/
  | inFrame (size : Nat) (offset : Int) (level : Nat)
  /-- Among the arguments handed to the function at a level. -/
  | parameter (size : Nat) (offset : Int) (level : Nat)
deriving DecidableEq, Repr

namespace Access

/-- The part of the written form that locals and parameters share. -/
def framed (size : Nat) (offset : Int) (level : Nat) : String :=
  "(size: " ++ toString size ++ ", offset: " ++ toString offset ++ ", sl: " ++ toString level ++ ")"

/-- The written form of an access. -/
def text : Access → String
  | global size label => "Global(size: " ++ toString size ++ ", label: " ++ label.text ++ ")"
  | inFrame size offset level => "Local" ++ framed size offset level
  | parameter size offset level => "Parameter" ++ framed size offset level

end Access

end Pins
