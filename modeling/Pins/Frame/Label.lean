/-!
# Labels

A label is a symbolic address of code or data. It is named after a definition, or it is generated
and then numbered; the written form of a generated label is its number behind the letter L.
-/

namespace Pins

/-- A symbolic address. -/
inductive Label where
  /-- The label of a name of the program or of the runtime. -/
  | named (name : String)
  /-- A generated label, unique within one compilation. -/
  | generated (number : Nat)
deriving DecidableEq, Repr

/-- The written form of a label. -/
def Label.text : Label → String
  | named name => name
  | generated number => "L" ++ toString number

/-- The numbers that are left for generated labels: all from the next one on. -/
structure LabelSupply where
  /-- The number of the label that is generated next. -/
  next : Nat
deriving DecidableEq, Repr

namespace LabelSupply

/-- All numbers are left. -/
def full : LabelSupply := ⟨0⟩

/-- The next label. -/
def label (supply : LabelSupply) : Label := .generated supply.next

/-- The supply without its next label. -/
def rest (supply : LabelSupply) : LabelSupply := ⟨supply.next + 1⟩

@[simp] theorem next_rest (supply : LabelSupply) : supply.rest.next = supply.next + 1 := rfl

/-- Labels that are drawn one after the other are different. -/
theorem label_ne_of_lt {supply later : LabelSupply} (h : supply.next < later.next) :
    supply.label ≠ later.label := by
  intro he
  exact absurd (Label.generated.inj he) (Nat.ne_of_lt h)

end LabelSupply

end Pins
