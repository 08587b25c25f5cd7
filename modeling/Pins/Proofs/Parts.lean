import Pins.Chunk

/-!
# What stands anywhere in code

`collect pick` lists what `pick` finds at the nodes of code, in the order in which the code is
written. The labels that code defines, the routines it calls and the destinations it moves to are
collected this way.

All of these are effects. They are found in the list of all effects of code, so whatever changes the
code need only be followed in that list.
-/

namespace Pins

namespace Ir

variable {α β : Type} {pick : Tree → Option α}

mutual

/-- What is picked at the nodes of an expression. -/
def Expr.collect (pick : Tree → Option α) : Expr → List α
  | .constant value => (pick (.expr (.constant value))).toList
  | .name label => (pick (.expr (.name label))).toList
  | .memory address => (pick (.expr (.memory address))).toList ++ address.collect pick
  | .binop operator left right =>
    (pick (.expr (.binop operator left right))).toList ++ left.collect pick ++ right.collect pick
  | .call label arguments =>
    (pick (.expr (.call label arguments))).toList ++ Expr.collectAll pick arguments
  | .eseq statement value =>
    (pick (.expr (.eseq statement value))).toList ++ statement.collect pick ++ value.collect pick

/-- What is picked at the nodes of a statement. -/
def Stmt.collect (pick : Tree → Option α) : Stmt → List α
  | .move destination source =>
    (pick (.stmt (.move destination source))).toList ++ destination.collect pick ++
      source.collect pick
  | .exp value => (pick (.stmt (.exp value))).toList ++ value.collect pick
  | .seq statements => (pick (.stmt (.seq statements))).toList ++ Stmt.collectAll pick statements
  | .label label => (pick (.stmt (.label label))).toList
  | .jump target => (pick (.stmt (.jump target))).toList
  | .cjump condition thenTarget elseTarget =>
    (pick (.stmt (.cjump condition thenTarget elseTarget))).toList ++ condition.collect pick

/-- What is picked at the nodes of expressions, one behind the other. -/
def Expr.collectAll (pick : Tree → Option α) : List Expr → List α
  | [] => []
  | code :: codes => code.collect pick ++ Expr.collectAll pick codes

/-- What is picked at the nodes of statements, one behind the other. -/
def Stmt.collectAll (pick : Tree → Option α) : List Stmt → List α
  | [] => []
  | code :: codes => code.collect pick ++ Stmt.collectAll pick codes

end

/-- The label that a node defines. -/
def Tree.label? : Tree → Option Label
  | .stmt (.label label) => some label
  | _ => none

/-- The label that a node calls. -/
def Tree.callee? : Tree → Option Label
  | .expr (.call label _) => some label
  | _ => none

/-- Where a node moves a value to. -/
def Tree.destination? : Tree → Option Expr
  | .stmt (.move destination _) => some destination
  | _ => none

/-- A value kept at an address. -/
def Expr.isMemory : Expr → Bool
  | .memory _ => true
  | _ => false

@[simp] theorem Expr.collectAll_eq (codes : List Expr) :
    Expr.collectAll pick codes = codes.flatMap (Expr.collect pick) := by
  induction codes with
  | nil => rfl
  | cons code codes ih => simp [Expr.collectAll, ih]

@[simp] theorem Stmt.collectAll_eq (codes : List Stmt) :
    Stmt.collectAll pick codes = codes.flatMap (Stmt.collect pick) := by
  induction codes with
  | nil => rfl
  | cons code codes ih => simp [Stmt.collectAll, ih]

/-- What code does besides computing a value. -/
inductive Effect where
  /-- Defines a label. -/
  | label (label : Label)
  /-- Calls a routine. -/
  | call (callee : Label)
  /-- Moves a value to a destination. -/
  | move (destination : Expr)

namespace Effect

/-- The label that an effect defines. -/
def label? : Effect → Option Label
  | label found => some found
  | _ => none

/-- The label that an effect calls. -/
def callee? : Effect → Option Label
  | call callee => some callee
  | _ => none

/-- Where an effect moves a value to. -/
def destination? : Effect → Option Expr
  | move destination => some destination
  | _ => none

end Effect

/-- The effect of a node itself. -/
def Tree.effect? : Tree → Option Effect
  | .stmt (.label label) => some (.label label)
  | .expr (.call label _) => some (.call label)
  | .stmt (.move destination _) => some (.move destination)
  | _ => none

/-- The effects of an expression. -/
def Expr.effects : Expr → List Effect := Expr.collect Tree.effect?

/-- The effects of a statement. -/
def Stmt.effects : Stmt → List Effect := Stmt.collect Tree.effect?

section Effects

variable {value address left right destination source : Expr} {statement : Stmt}
  {codes : List Expr} {statements : List Stmt} {label target other : Label}

@[simp] theorem effects_constant {number : Int} : (Expr.constant number).effects = [] := rfl

@[simp] theorem effects_name : (Expr.name label).effects = [] := rfl

@[simp] theorem effects_memory : (Expr.memory address).effects = address.effects := rfl

@[simp] theorem effects_binop {operator : Operator} :
    (Expr.binop operator left right).effects = left.effects ++ right.effects := rfl

@[simp] theorem effects_call :
    (Expr.call label codes).effects = .call label :: codes.flatMap Expr.effects := by
  simp [Expr.effects, Expr.collect, Tree.effect?]

@[simp] theorem effects_eseq :
    (Expr.eseq statement value).effects = statement.effects ++ value.effects := rfl

@[simp] theorem effects_move :
    (Stmt.move destination source).effects =
      .move destination :: (destination.effects ++ source.effects) := rfl

@[simp] theorem effects_exp : (Stmt.exp value).effects = value.effects := rfl

@[simp] theorem effects_seq : (Stmt.seq statements).effects = statements.flatMap Stmt.effects := by
  simp [Stmt.effects, Stmt.collect, Tree.effect?]

@[simp] theorem effects_label : (Stmt.label label).effects = [.label label] := rfl

@[simp] theorem effects_jump : (Stmt.jump target).effects = [] := rfl

@[simp] theorem effects_cjump : (Stmt.cjump value target other).effects = value.effects := rfl

@[simp] theorem effects_staticLink (depth : Nat) : (staticLink depth).effects = [] := by
  induction depth with
  | zero => rfl
  | succ depth ih => exact ih

end Effects

/-- What is picked from an option can be picked from its list. -/
theorem toList_bind (select : α → Option β) (found : Option α) :
    (found.bind select).toList = found.toList.filterMap select := by
  cases found with
  | none => rfl
  | some value => cases h : select value <;> simp [h]

mutual

/-- It does not matter if one selects at each node of an expression or from what was picked. -/
theorem Expr.collect_bind (select : α → Option β) : ∀ code : Expr,
    code.collect (fun tree => (pick tree).bind select) = (code.collect pick).filterMap select
  | .constant _ | .name _ => by simp [Expr.collect, toList_bind]
  | .memory address => by simp [Expr.collect, toList_bind, address.collect_bind select]
  | .binop _ left right => by
    simp [Expr.collect, toList_bind, left.collect_bind select, right.collect_bind select]
  | .call _ arguments => by
    simp only [Expr.collect, toList_bind, Expr.collectAll_bind select arguments,
      List.filterMap_append]
  | .eseq statement value => by
    simp [Expr.collect, toList_bind, statement.collect_bind select, value.collect_bind select]

theorem Stmt.collect_bind (select : α → Option β) : ∀ code : Stmt,
    code.collect (fun tree => (pick tree).bind select) = (code.collect pick).filterMap select
  | .move destination source => by
    simp [Stmt.collect, toList_bind, destination.collect_bind select, source.collect_bind select]
  | .exp value => by simp [Stmt.collect, toList_bind, value.collect_bind select]
  | .seq statements => by
    simp only [Stmt.collect, toList_bind, Stmt.collectAll_bind select statements,
      List.filterMap_append]
  | .label _ | .jump _ => by simp [Stmt.collect, toList_bind]
  | .cjump condition _ _ => by simp [Stmt.collect, toList_bind, condition.collect_bind select]

theorem Expr.collectAll_bind (select : α → Option β) : ∀ codes : List Expr,
    Expr.collectAll (fun tree => (pick tree).bind select) codes =
      (Expr.collectAll pick codes).filterMap select
  | [] => rfl
  | code :: codes => by
    simp only [Expr.collectAll, code.collect_bind select, Expr.collectAll_bind select codes,
      List.filterMap_append]

theorem Stmt.collectAll_bind (select : α → Option β) : ∀ codes : List Stmt,
    Stmt.collectAll (fun tree => (pick tree).bind select) codes =
      (Stmt.collectAll pick codes).filterMap select
  | [] => rfl
  | code :: codes => by
    simp only [Stmt.collectAll, code.collect_bind select, Stmt.collectAll_bind select codes,
      List.filterMap_append]

end

/-- What is picked at effects only can be picked from the effects of an expression. -/
theorem Expr.collect_eq_filterMap {select : Effect → Option β} {pick : Tree → Option β}
    (h : ∀ tree, pick tree = tree.effect?.bind select) (code : Expr) :
    code.collect pick = code.effects.filterMap select := by
  rw [funext h, code.collect_bind select, Expr.effects]

/-- The same of expressions that stand one behind the other. -/
theorem flatMap_collect_eq {select : Effect → Option β} {pick : Tree → Option β}
    (h : ∀ tree, pick tree = tree.effect?.bind select) (codes : List Expr) :
    codes.flatMap (Expr.collect pick) = (codes.flatMap Expr.effects).filterMap select := by
  rw [funext (Expr.collect_eq_filterMap h), List.filterMap_flatMap]

theorem Tree.label?_eq_bind (tree : Tree) : tree.label? = tree.effect?.bind Effect.label? := by
  rcases tree with code | code <;> cases code <;> rfl

theorem Tree.callee?_eq_bind (tree : Tree) : tree.callee? = tree.effect?.bind Effect.callee? := by
  rcases tree with code | code <;> cases code <;> rfl

theorem Tree.destination?_eq_bind (tree : Tree) :
    tree.destination? = tree.effect?.bind Effect.destination? := by
  rcases tree with code | code <;> cases code <;> rfl

end Ir

namespace Chunk

/-- The frame of the function whose code a chunk is. -/
def frame? : Chunk → Option Frame
  | code frame _ => some frame
  | data .. | global _ => none

/-- The labels that a chunk defines, without the one of its frame. -/
def labels : Chunk → List Label
  | code _ body => body.collect Ir.Tree.label?
  | data (.global _ label) _ | global (.global _ label) => [label]
  | data .. | global _ => []

/-- The labels that the code of a chunk calls. -/
def callees : Chunk → List Label
  | code _ body => body.collect Ir.Tree.callee?
  | data .. | global _ => []

/-- Where the code of a chunk moves values to. -/
def destinations : Chunk → List Ir.Expr
  | code _ body => body.collect Ir.Tree.destination?
  | data .. | global _ => []

end Chunk

end Pins
