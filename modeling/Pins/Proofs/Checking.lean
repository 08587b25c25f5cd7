import Pins.Proofs.Runs
import Pins.Typing

/-!
# What checking keeps

Typing an expression and checking a node look up the types of definitions, of written types and of
other expressions, compare them, and stop where they do not fit. So whatever the lookups keep of the
state is kept by checking (`expressionStep_keeps`, `nodeStep_keeps`), and the diagnostics checking
stops with are those of the lookups and a few of its own (`Fault.IsLocal`).
-/

namespace Pins

namespace Pass

variable {σ α β ι : Type} {allowed : Diagnostic → Prop} {kept : σ → Prop}

/-- A pass that starts in a state with a property ends in one, or it stops with a diagnostic that is
allowed. -/
def Keeps (allowed : Diagnostic → Prop) (kept : σ → Prop) (pass : Pass σ α) : Prop :=
  ∀ state, kept state → pass.Runs allowed state fun _ after => kept after

namespace Keeps

theorem pure (value : α) : Keeps allowed kept (Pure.pure value : Pass σ α) :=
  fun _ hk => hk

theorem bind {pass : Pass σ α} {next : α → Pass σ β} (h : Keeps allowed kept pass)
    (hn : ∀ value, Keeps allowed kept (next value)) : Keeps allowed kept (pass >>= next) :=
  fun state hk => runs_bind.mpr ((h state hk).mono fun value after => hn value after)

theorem forM {step : ι → Pass σ PUnit} {members : List ι}
    (h : ∀ member, Keeps allowed kept (step member)) : Keeps allowed kept (members.forM step) :=
  fun _ hk => runs_forM (fun member _ => h member) hk

theorem mapM {step : ι → Pass σ α} {members : List ι}
    (h : ∀ member, Keeps allowed kept (step member)) : Keeps allowed kept (members.mapM step) :=
  fun _ hk => runs_mapM (fun member _ => h member) hk

/-- A pass that depends on a condition. -/
theorem ite {condition : Prop} [Decidable condition] {pass other : Pass σ α}
    (h : Keeps allowed kept pass) (ho : ¬ condition → Keeps allowed kept other) :
    Keeps allowed kept (if condition then pass else other) := by
  split
  · exact h
  · next hc => exact ho hc

end Keeps

end Pass

/-- A fault that checking finds by itself: no cycle of definitions, and where two types are set
against each other, these are different types. -/
def Fault.IsLocal : Fault → Prop
  | argumentTypeMismatch _ _ expected received | returnTypeMismatch _ expected received =>
    ∃ first second : Ty, first ≠ second ∧ expected = first.text ∧ received = second.text
  | cyclicTypeDefinition _ => False
  | _ => True

namespace Typing

/-- Whatever checking finds by itself may be reported. -/
def Permits (arena : Arena) (allowed : Diagnostic → Prop) : Prop :=
  ∀ fault : Fault, fault.IsLocal → ∀ id, allowed ⟨fault, arena.position id⟩

section Steps

variable {arena : Arena} {bindings : NodeTable NodeId} {id : NodeId} {allowed : Diagnostic → Prop}
  {kept : State → Prop} {ofDefinition ofWritten typeOf : NodeId → Check Ty}
  {check : NodeId → Check Unit}

/-- A type that is kept is handed on. -/
theorem memoized_keeps {find : Check Ty} (h : Pass.Keeps allowed kept find) :
    Pass.Keeps allowed kept (memoized id find) := by
  intro state hk
  simp only [memoized, Pass.runs_bind, Pass.runs_get]
  cases state.types.get? id with
  | some type => exact hk
  | none => exact h state hk

variable (hp : Permits arena allowed)

include hp

theorem fail_keeps {α : Type} {fault : Fault} (h : fault.IsLocal) :
    Pass.Keeps allowed kept (fail arena id fault : Check α) :=
  fun _ _ => hp fault h id

theorem refuseOperands_keeps {α : Type} {operator : String} {operands : List Ty} :
    Pass.Keeps allowed kept (refuseOperands arena id operator operands : Check α) :=
  fail_keeps hp trivial

theorem binaryType_keeps {left right : NodeId} {operator : BinaryOperator}
    {leftType rightType : Ty} :
    Pass.Keeps allowed kept (binaryType arena id left right operator leftType rightType) := by
  cases operator with
  | or | and | add | sub | mul | div | mod | eq | neq | lt | gt | leq | geq =>
    exact .ite (.pure _) fun _ => refuseOperands_keeps hp
  | assign => exact .ite (.pure _) fun _ => fail_keeps hp trivial
  | index =>
    simp only [binaryType]
    cases leftType.element? with
    | none => exact fail_keeps hp trivial
    | some element => exact .ite (.pure _) fun _ => refuseOperands_keeps hp

variable (htype : ∀ id, Pass.Keeps allowed kept (typeOf id))

include htype

theorem condition_keeps : Pass.Keeps allowed kept (condition arena typeOf id) :=
  (htype id).bind fun _ => .ite (.pure _) fun _ => fail_keeps hp trivial

theorem loopPart_keeps {part : String} : Pass.Keeps allowed kept (loopPart arena typeOf part id) :=
  (htype id).bind fun _ => .ite (.pure _) fun _ => fail_keeps hp trivial

theorem checkArguments_keeps {callee : String} {index : Nat} {arguments : List NodeId}
    {parameters : List Ty} :
    Pass.Keeps allowed kept (checkArguments arena typeOf callee index arguments parameters) := by
  induction arguments generalizing index parameters with
  | nil => exact .pure _
  | cons argument arguments ih =>
    cases parameters with
    | nil => exact .pure _
    | cons parameter parameters =>
      refine (htype argument).bind fun type => .ite ih fun hne => ?_
      exact fail_keeps hp ⟨parameter, type, Ne.symm hne, rfl, rfl⟩

omit hp in
theorem lastType_keeps {expressions : List NodeId} :
    Pass.Keeps allowed kept (lastType typeOf expressions) := by
  induction expressions with
  | nil => exact .pure _
  | cons first rest ih =>
    cases rest with
    | nil => exact (htype first).bind fun _ => .pure _
    | cons => exact (htype first).bind fun _ => ih

variable (hd : ∀ id, Pass.Keeps allowed kept (ofDefinition id))

include hd

theorem callType_keeps {callee : String} {arguments : List NodeId} :
    Pass.Keeps allowed kept
      (callType arena bindings ofDefinition typeOf id callee arguments) := by
  have hsignature : Pass.Keeps allowed kept (signature arena bindings ofDefinition id callee) := by
    unfold signature
    split
    · exact .pure _
    · exact hd _
    · exact fail_keeps hp trivial
  refine hsignature.bind fun found => ?_
  split
  · exact .ite ((checkArguments_keeps hp htype).bind fun _ => .pure _)
      fun _ => fail_keeps hp trivial
  · exact fail_keeps hp trivial

variable (hcheck : ∀ id, Pass.Keeps allowed kept (check id))

include hcheck

/-- Typing an expression keeps what the lookups for it keep. -/
theorem expressionStep_keeps {expression : Expression} :
    Pass.Keeps allowed kept
      (expressionStep arena bindings ofDefinition typeOf check id expression) := by
  cases expression with
  | literal value atom => exact .pure _
  | name word =>
    simp only [expressionStep]
    cases bindings.get? id with
    | none => exact fail_keeps hp trivial
    | some target => exact hd target
  | call callee arguments => exact callType_keeps hp htype hd
  | binary operator left right =>
    exact (htype left).bind fun _ => (htype right).bind fun _ => binaryType_keeps hp
  | unary operator operand =>
    exact (htype operand).bind fun _ => .ite (.pure _) fun _ => refuseOperands_keeps hp
  | block expressions =>
    refine (lastType_keeps htype).bind fun found => ?_
    cases found with
    | none => exact fail_keeps hp trivial
    | some type => exact .pure _
  | conditional test thenBranch elseBranch =>
    refine (condition_keeps hp htype).bind fun _ => (htype thenBranch).bind fun _ => ?_
    exact (Pass.Keeps.forM fun branch => (htype branch).bind fun _ => .pure _).bind
      fun _ => .pure _
  | whileLoop test body =>
    exact (condition_keeps hp htype).bind fun _ => (htype body).bind fun _ => .pure _
  | forLoop counter low high step body =>
    refine (loopPart_keeps hp htype).bind fun _ => (loopPart_keeps hp htype).bind fun _ => ?_
    refine (loopPart_keeps hp htype).bind fun _ => (loopPart_keeps hp htype).bind fun _ => ?_
    exact (htype body).bind fun _ => .pure _
  | whereClause definitions body => exact (hcheck definitions).bind fun _ => htype body

/-- Checking a node keeps what the lookups for it keep. -/
theorem nodeStep_keeps (hw : ∀ id, Pass.Keeps allowed kept (ofWritten id)) :
    Pass.Keeps allowed kept (nodeStep arena ofDefinition ofWritten typeOf check id) := by
  unfold nodeStep
  split
  · exact fail_keeps hp trivial
  · exact .forM hcheck
  · next name parameters result body _ =>
    refine (hd id).bind fun found => ?_
    split
    · next _ declared =>
      refine (htype body).bind fun type => .ite (.pure _) fun hne => ?_
      exact fail_keeps hp ⟨declared, type, Ne.symm hne, rfl, rfl⟩
    · exact fail_keeps hp trivial
  · exact (hd id).bind fun _ => .pure _
  · exact (htype id).bind fun _ => .pure _
  · exact (hw id).bind fun _ => .pure _

end Steps

end Typing

end Pins
