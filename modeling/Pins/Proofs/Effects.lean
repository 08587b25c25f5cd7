import Pins.Proofs.Parts
import Pins.Proofs.Tally

/-!
# The effects of lowered code

The code of an expression has the effects of the codes of its operands, those of the codes that it
repeats, and some of its own (`Combines.effects_perm`). Only the target of an assignment and the
counter of a loop are repeated, and a counter has no effects.
-/

namespace Pins.Lowering

open Ir (Effect Expr)

variable {α : Type} {program : Program} {first last level : Nat} {id : NodeId} {item : Expression}
  {task : Task} {labels rest : LabelSupply} {codes : List Expr} {code : Expr}
  {chunks own : List Chunk}

@[simp] theorem effects_slotAddress (level target : Nat) (offset : Int) :
    (slotAddress level target offset).effects = [] := by
  simp [slotAddress]

@[simp] theorem effects_valueAt (level : Nat) (type : Ty) (access : Access) :
    (valueAt level type access).effects = [] := by
  cases ha : type.isArray <;> cases access <;> simp [valueAt, ha]

@[simp] theorem effects_linkToCallee (caller callee : Nat) :
    (linkToCallee caller callee).effects = [] := by
  unfold linkToCallee
  split
  · rfl
  · split
    · rfl
    · exact Ir.effects_staticLink _

@[simp] theorem effects_indexed (element : Ty) (size : Nat) (array index : Expr) :
    (indexed element size array index).effects = array.effects ++ index.effects := by
  cases ha : element.isArray <;> simp [indexed, ha]

@[simp] theorem effects_unaryCode (operand : Expr) (operator : UnaryOperator) :
    (unaryCode operand operator).effects = operand.effects := by
  cases operator <;> rfl

@[simp] theorem effects_zeroAfter (statements : List Ir.Stmt) :
    (zeroAfter statements).effects = statements.flatMap Ir.Stmt.effects := by
  simp [zeroAfter]

/-- The codes that an expression repeats, of the codes of its operands. -/
def repeated (codes : List Expr) : Expression → List Expr
  | .binary .assign _ _ => codes.take 1
  | .forLoop .. => codes.take 1 ++ codes.take 1 ++ codes.take 1
  | _ => []

/-- The effects that a call has itself. -/
def callEffects (program : Program) (id : NodeId) (callee : String) : List Effect :=
  if Builtin.isRoutine callee then [.call (.named callee)]
  else
    match (program.bindings.get? id).bind program.layout.frames.get? with
    | some frame => (saveFramePointer frame).effects ++ [.call frame.label]
    | none => []

/-- The effects that an expression has itself, beside those of the codes of its operands. -/
def ownEffects (program : Program) (id : NodeId) (labels : LabelSupply) (codes : List Expr) :
    Expression → List Effect
  | .call callee _ => callEffects program id callee
  | .binary .assign _ _ => (codes.take 1).map .move
  | .conditional .. => [.label labels.label, .label labels.rest.label]
  | .whileLoop .. =>
    [.label labels.label, .label labels.rest.label, .label labels.rest.rest.label]
  | .forLoop .. =>
    [.label labels.label, .label labels.rest.label, .label labels.rest.rest.label] ++
      (codes.take 1 ++ codes.take 1).map .move
  | _ => []

/-- The effects that a choice of two branches has itself. -/
def choiceEffects (labels rest : LabelSupply) : List Effect :=
  [.label labels.label, .label rest.label, .label labels.rest.label]

/-- The effects of an expression are those of its operands and of what it repeats, and its own. -/
theorem Combines.effects_perm (h : Combines program level id item codes labels code own rest) :
    code.effects.Perm ((codes ++ repeated codes item).flatMap Expr.effects ++
      ownEffects program id labels codes item) := by
  classical
  refine List.perm_iff_count.mpr fun effect => ?_
  cases h with
  | integer | logical | string | name => simp [repeated, ownEffects]
  | routine hr => simp [repeated, ownEffects, callEffects, hr, List.count_cons]
  | call hr hb hf =>
    simp [repeated, ownEffects, callEffects, hr, hb, hf, List.count_cons]
    omega
  | @operation operator left right leftCode rightCode computed _ ho =>
    cases operator <;> cases ho <;> simp [repeated, ownEffects]
  | index | unary => simp [repeated, ownEffects]
  | assign =>
    simp [repeated, ownEffects, List.count_cons]
    omega
  | block => simp [repeated, ownEffects, List.flatMap_map]
  | conditional | whileLoop | forLoop =>
    simp [repeated, ownEffects, List.count_cons]
    omega

/-- A choice of two branches has the effects of its operands, and its own. -/
theorem choiceCode_effects_perm (labels rest : LabelSupply) (test thenCode elseCode : Expr) :
    (choiceCode labels rest test thenCode elseCode).effects.Perm
      ([test, thenCode, elseCode].flatMap Expr.effects ++ choiceEffects labels rest) := by
  classical
  refine List.perm_iff_count.mpr fun effect => ?_
  simp [choiceCode, choiceEffects, List.count_cons]
  omega

/-- What an expression repeats are codes of its operands. -/
theorem mem_of_mem_repeated (hm : code ∈ repeated codes item) : code ∈ codes := by
  unfold repeated at hm
  split at hm
  · exact List.mem_of_mem_take hm
  · simp only [List.mem_append, or_self] at hm
    exact List.mem_of_mem_take hm
  · cases hm

/-- What is selected of the effects of an expression is what is selected of its operands, of what it
repeats, and of its own. -/
theorem Combines.filterMap_perm (h : Combines program level id item codes labels code own rest)
    (select : Effect → Option α) :
    (code.effects.filterMap select).Perm
      (((codes ++ repeated codes item).flatMap Expr.effects).filterMap select ++
        (ownEffects program id labels codes item).filterMap select) := by
  rw [← List.filterMap_append]
  exact h.effects_perm.filterMap select

/-- What is selected of the effects of a choice is what is selected of its operands, and of its
own. -/
theorem choiceCode_filterMap_perm (labels rest : LabelSupply) (test thenCode elseCode : Expr)
    (select : Effect → Option α) :
    ((choiceCode labels rest test thenCode elseCode).effects.filterMap select).Perm
      (([test, thenCode, elseCode].flatMap Expr.effects).filterMap select ++
        (choiceEffects labels rest).filterMap select) := by
  rw [← List.filterMap_append]
  exact (choiceCode_effects_perm labels rest test thenCode elseCode).filterMap select

/-- The counter of a loop is a name, so its code has no effects. -/
theorem Lowers.effects_counter {counter low high step body : NodeId}
    (h : Lowers program level labels (.expressions [counter, low, high, step, body]) codes chunks
      rest)
    (hf : program.arena.Forest first
      (NodeKind.expression (.forLoop counter low high step body)).places last) :
    ∃ code others, codes = code :: others ∧ code.effects = [] := by
  simp only [NodeKind.places, Arena.forest_cons_iff] at hf
  obtain ⟨kind, hk, hadmits, _, _⟩ := Arena.subtree_iff.mp hf.1
  cases h with
  | expressions hcounter hothers =>
    refine ⟨_, _, rfl, ?_⟩
    cases hcounter with
    | node hk' hchildren hcombines =>
      cases hk.symm.trans hk'
      cases hcombines with
      | name => exact effects_valueAt _ _ _
      | _ => cases hadmits
    | choice hk' | whereClause hk' =>
      cases hk.symm.trans hk'
      cases hadmits

/-- Effects are repeated in assignments only. -/
theorem Lowers.effects_repeated
    (h : Lowers program level labels (.expressions item.children) codes chunks rest)
    (hf : program.arena.Forest first (NodeKind.expression item).places last)
    (hn : ∀ left right, item ≠ .binary .assign left right) :
    (repeated codes item).flatMap Expr.effects = [] := by
  unfold repeated
  split
  · next left right => exact absurd rfl (hn left right)
  · obtain ⟨code, others, rfl, hcode⟩ := h.effects_counter hf
    simp [hcode]
  · rfl

/-- Effects that are selected are own effects of the marked expressions exactly. -/
structure Marks (program : Program) (select : Effect → Option α) (mark : Expression → Bool) :
    Prop where
  /-- An expression and its operands. -/
  node : ∀ {level id item codes labels code own rest},
    Combines program level id item codes labels code own rest →
      ((ownEffects program id labels codes item).filterMap select = [] ↔ mark item = false)
  /-- A choice of two branches. -/
  choice : ∀ {labels rest condition thenBranch elseBranch},
    (choiceEffects labels rest).filterMap select = [] ↔
      mark (.conditional condition thenBranch (some elseBranch)) = false
  /-- A where clause has the code of the expression in it. -/
  whereClause : ∀ {inner body}, mark (.whereClause inner body) = false

namespace Marks

variable {select : Effect → Option α} {mark : Expression → Bool} (hm : Marks program select mark)

include hm

/-- An expression has a selected effect if and only if one of its operands has, or it is marked. -/
theorem node_iff (h : Combines program level id item codes labels code own rest) :
    code.effects.filterMap select = [] ↔
      (codes.flatMap Expr.effects).filterMap select = [] ∧ mark item = false := by
  have hperm := h.filterMap_perm select
  have hrepeated : (codes.flatMap Expr.effects).filterMap select = [] →
      ((repeated codes item).flatMap Expr.effects).filterMap select = [] := by
    simp only [List.filterMap_eq_nil_iff, List.mem_flatMap]
    rintro hnone effect ⟨code, hcode, heffect⟩
    exact hnone effect ⟨code, mem_of_mem_repeated hcode, heffect⟩
  rw [← hm.node h]
  simp only [List.flatMap_append, List.filterMap_append] at hperm
  constructor
  · intro hnone
    rw [hnone] at hperm
    have hall := hperm.symm.eq_nil
    simp only [List.append_eq_nil_iff] at hall
    exact ⟨hall.1.1, hall.2⟩
  · rintro ⟨hcodes, hown⟩
    rw [hcodes, hrepeated hcodes, hown] at hperm
    exact hperm.eq_nil

/-- A choice has a selected effect if and only if one of its operands has, or it is marked. -/
theorem choice_iff {test thenCode elseCode : Expr} {condition thenBranch elseBranch : NodeId} :
    (choiceCode labels rest test thenCode elseCode).effects.filterMap select = [] ↔
      ([test, thenCode, elseCode].flatMap Expr.effects).filterMap select = [] ∧
        mark (.conditional condition thenBranch (some elseBranch)) = false := by
  have hperm := choiceCode_filterMap_perm labels rest test thenCode elseCode select
  have hown : (choiceEffects labels rest).filterMap select = [] ↔
      mark (.conditional condition thenBranch (some elseBranch)) = false := hm.choice
  rw [← hown, ← List.append_eq_nil_iff]
  constructor
  · intro hnone
    rw [hnone] at hperm
    exact hperm.symm.eq_nil
  · intro hall
    rw [hall] at hperm
    exact hperm.eq_nil

end Marks

/-- An expression has a selected effect if and only if a marked expression is computed with it. -/
theorem Lowers.effects_eq_nil_iff {select : Effect → Option α} {mark : Expression → Bool}
    (h : Lowers program level labels task codes chunks rest) (hm : Marks program select mark)
    (ht : program.arena.IsTree) :
    (codes.flatMap Expr.effects).filterMap select = [] ↔
      ∀ id ∈ task.ids, ∀ part ∈ program.arena.own id,
        (program.arena.expression? part).any mark = false := by
  let unmarked : NodeId → Prop := fun id =>
    ∀ part ∈ program.arena.own id, (program.arena.expression? part).any mark = false
  have hown : ∀ {id kind}, program.arena.kind? id = some kind → (unmarked id ↔
      (program.arena.expression? id).any mark = false ∧
        ∀ below ∈ program.arena.operands id, unmarked below) :=
    fun hk => ht.forall_own_iff hk
  have hplain : ∀ {id definition}, program.arena.kind? id = some (.definition definition) →
      ∀ other ∈ [id], unmarked other := by
    intro id definition hk other hm
    obtain rfl := List.mem_singleton.mp hm
    rw [hown hk, Arena.operands_definition hk]
    simp [Arena.expression?, hk]
  change _ ↔ ∀ id ∈ task.ids, unmarked id
  induction h with
  | @node level labels₁ labels₂ labels₃ id item codes code chunks own hk hl hc ih =>
    have hw : ∀ inner body, item ≠ .whereClause inner body := by
      rintro inner body rfl
      cases hc
    have hbelow : (codes.flatMap Expr.effects).filterMap select = [] ↔
        ∀ below ∈ item.children, unmarked below := ih
    rw [List.flatMap_singleton, hm.node_iff hc, hbelow]
    simp only [Task.ids, List.mem_singleton, forall_eq, hown hk, Arena.operands_eq_children hk hw,
      Arena.expression?_of_kind? hk, Option.any_some]
    exact and_comm
  | @choice level labels₁ labels₂ labels₃ id condition thenBranch elseBranch test thenCode elseCode
      chunks others hk hfront helse ihf ihe =>
    have hw : ∀ inner body,
        Expression.conditional condition thenBranch (some elseBranch) ≠ .whereClause inner body :=
      by simp
    have hall : ([test, thenCode, elseCode].flatMap Expr.effects).filterMap select = [] ↔
        ∀ below ∈ [condition, thenBranch, elseBranch], unmarked below := by
      have hsplit : [test, thenCode, elseCode].flatMap Expr.effects =
          [test, thenCode].flatMap Expr.effects ++ [elseCode].flatMap Expr.effects := by simp
      rw [hsplit, List.filterMap_append, List.append_eq_nil_iff, ihf, ihe]
      simp [Task.ids, and_assoc]
    rw [List.flatMap_singleton, hm.choice_iff, hall]
    simp only [Task.ids, List.mem_singleton, forall_eq, hown hk, Arena.operands_eq_children hk hw,
      Arena.expression?_of_kind? hk, Option.any_some, Expression.children, Option.toList_some]
    exact and_comm
  | @whereClause level labels₁ labels₂ labels₃ id inner body members code chunks others hk hd hl hb
      ihl ihb =>
    rw [ihb]
    simp only [Task.ids, List.mem_singleton, forall_eq, hown hk, Arena.operands_whereClause hk,
      Arena.expression?_of_kind? hk, Option.any_some, hm.whereClause]
    exact ⟨fun h => ⟨trivial, h⟩, fun h => h.2⟩
  | noExpressions | noDefinitions => simp [Task.ids]
  | @expressions level labels₁ labels₂ labels₃ id ids code codes chunks others hf hr ihf ihr =>
    have hfirst : code.effects.filterMap select = [] ↔ unmarked id := by
      simpa [Task.ids] using ihf
    simp only [List.flatMap_cons, List.filterMap_append, List.append_eq_nil_iff, Task.ids,
      List.forall_mem_cons, hfirst]
    exact and_congr_right fun _ => ihr
  | function hk _ _ => exact ⟨fun _ => hplain hk, fun _ => rfl⟩
  | storage hk _ => exact ⟨fun _ => hplain hk, fun _ => rfl⟩
  | type hk => exact ⟨fun _ => hplain hk, fun _ => rfl⟩
  | parameter hk => exact ⟨fun _ => hplain hk, fun _ => rfl⟩
  | @definitions level labels₁ labels₂ labels₃ id ids chunks others hf hr ihf ihr =>
    have hall : ∀ other ∈ id :: ids, unmarked other := by
      intro other hm
      rcases List.mem_cons.mp hm with rfl | hm
      · exact ihf.mp rfl other List.mem_cons_self
      · exact ihr.mp rfl other hm
    exact ⟨fun _ => hall, fun _ => rfl⟩

end Pins.Lowering
