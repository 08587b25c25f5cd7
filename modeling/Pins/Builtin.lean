import Pins.Ty

/-!
# Built-in routines

The runtime provides some routines that no program defines. A call of one of their names always
means the routine, whatever the program defines under that name.
-/

namespace Pins.Builtin

/-- The routines by name, with the types of their parameters and of their result. -/
def routines : List (String × List Ty × Ty) :=
  [("print_int", [.integer], .integer), ("print_str", [.string], .string),
    ("print_log", [.logical], .logical), ("rand_int", [.integer, .integer], .integer),
    ("seed", [.integer], .integer)]

/-- A routine has this name. -/
def isRoutine (name : String) : Bool := (routines.lookup name).isSome

/-- The function type of the routine of a name. -/
def signature? (name : String) : Option Ty :=
  (routines.lookup name).map fun routine => .function routine.1 routine.2

end Pins.Builtin
