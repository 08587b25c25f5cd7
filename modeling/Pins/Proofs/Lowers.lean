import Pins.Lowering
import Pins.Proofs.Forest
import Pins.Proofs.Runs

/-!
# What lowering makes of a tree

`Lowers` is lowering as a relation: from a level and a supply of labels, a task is lowered to code
and chunks, and labels are left. There is one rule for each way in which nodes are lowered one after
the other, and `Combines` says what one expression makes of the code of its operands. A run of the
pass that ends with a value goes by these rules (`ofProgram_lowers`), so whatever the rules keep,
lowering keeps.
-/

namespace Pins.Lowering

/-- What is lowered: an expression or a definition, or a list of either. -/
inductive Task where
  | expression (id : NodeId)
  | expressions (ids : List NodeId)
  | definition (id : NodeId)
  | definitions (ids : List NodeId)

/-- The code of a name whose definition is kept at an access, seen from a level. -/
def valueAt (level : Nat) (type : Ty) : Access → Ir.Expr
  | .global _ label => if type.isArray then .name label else .memory (.name label)
  | .inFrame _ offset target =>
    if type.isArray then slotAddress level target offset
    else .memory (slotAddress level target offset)
  | .parameter _ offset target => .memory (slotAddress level target offset)

/-- The storage of a variable with a label. -/
def storageChunks : Access → List Chunk
  | .global size label => [.global (.global size label)]
  | _ => []

/-- What an expression makes of the code of its operands, without choices of two branches and where
clauses: its own code, its own chunks, and the labels left. -/
inductive Combines (program : Program) (level : Nat) (id : NodeId) :
    Expression → List Ir.Expr → LabelSupply → Ir.Expr → List Chunk → LabelSupply → Prop where
  | integer {value : String} {number : Int} {labels : LabelSupply}
      (hn : Text.signed? value = some number) :
      Combines program level id (.literal value .integer) [] labels (.constant number) [] labels
  | logical {value : String} {labels : LabelSupply} :
      Combines program level id (.literal value .logical) [] labels
        (.constant (if value = "true" then 1 else 0)) [] labels
  | string {value : String} {labels : LabelSupply} :
      Combines program level id (.literal value .string) [] labels (.name labels.label)
        [.data (.global wordSize labels.label) value] labels.rest
  | name {word : String} {definition : NodeId} {type : Ty} {access : Access}
      {labels : LabelSupply} (hb : program.bindings.get? id = some definition)
      (ht : program.types.get? definition = some type)
      (ha : program.layout.accesses.get? definition = some access) :
      Combines program level id (.name word) [] labels (valueAt level type access) [] labels
  | routine {callee : String} {arguments : List NodeId} {codes : List Ir.Expr}
      {labels : LabelSupply} (hr : Builtin.isRoutine callee = true) :
      Combines program level id (.call callee arguments) codes labels
        (.call (.named callee) (.constant 0 :: codes)) [] labels
  | call {callee : String} {arguments : List NodeId} {codes : List Ir.Expr} {function : NodeId}
      {frame : Frame} {labels : LabelSupply} (hr : Builtin.isRoutine callee = false)
      (hb : program.bindings.get? id = some function)
      (hf : program.layout.frames.get? function = some frame) :
      Combines program level id (.call callee arguments) codes labels
        (.eseq (saveFramePointer frame)
          (.call frame.label (linkToCallee level frame.level :: codes))) [] labels
  | operation {operator : BinaryOperator} {left right : NodeId} {leftCode rightCode : Ir.Expr}
      {computed : Ir.Operator} {labels : LabelSupply}
      (ho : Ir.Operator.ofBinary? operator = some computed) :
      Combines program level id (.binary operator left right) [leftCode, rightCode] labels
        (.binop computed leftCode rightCode) [] labels
  | index {left right : NodeId} {leftCode rightCode : Ir.Expr} {type element : Ty} {size : Nat}
      {labels : LabelSupply} (ht : program.types.get? left = some type)
      (he : type.element? = some element) (hs : element.size? = some size) :
      Combines program level id (.binary .index left right) [leftCode, rightCode] labels
        (indexed element size leftCode rightCode) [] labels
  | assign {left right : NodeId} {leftCode rightCode : Ir.Expr} {labels : LabelSupply} :
      Combines program level id (.binary .assign left right) [leftCode, rightCode] labels
        (.eseq (.move leftCode rightCode) leftCode) [] labels
  | unary {operator : UnaryOperator} {operand : NodeId} {code : Ir.Expr} {labels : LabelSupply} :
      Combines program level id (.unary operator operand) [code] labels (unaryCode code operator) []
        labels
  | block {expressions : List NodeId} {codes : List Ir.Expr} {value : Ir.Expr}
      {labels : LabelSupply} :
      Combines program level id (.block expressions) (codes ++ [value]) labels
        (.eseq (.seq (codes.map .exp)) value) [] labels
  | conditional {condition thenBranch : NodeId} {test thenCode : Ir.Expr} {labels : LabelSupply} :
      Combines program level id (.conditional condition thenBranch none) [test, thenCode] labels
        (zeroAfter [.cjump test labels.label labels.rest.label, .label labels.label, .exp thenCode,
          .label labels.rest.label]) [] labels.rest.rest
  | whileLoop {condition body : NodeId} {test code : Ir.Expr} {labels : LabelSupply} :
      Combines program level id (.whileLoop condition body) [test, code] labels
        (zeroAfter [.label labels.label, .cjump test labels.rest.label labels.rest.rest.label,
          .label labels.rest.label, .exp code, .jump labels.label, .label labels.rest.rest.label])
        [] labels.rest.rest.rest
  | forLoop {counter low high step body : NodeId}
      {counterCode lowCode highCode stepCode code : Ir.Expr} {labels : LabelSupply} :
      Combines program level id (.forLoop counter low high step body)
        [counterCode, lowCode, highCode, stepCode, code] labels
        (zeroAfter [.move counterCode lowCode, .label labels.label,
          .cjump (.binop .lt counterCode highCode) labels.rest.label labels.rest.rest.label,
          .label labels.rest.label, .exp code,
          .move counterCode (.binop .add counterCode stepCode), .jump labels.label,
          .label labels.rest.rest.label])
        [] labels.rest.rest.rest

/-- The code of a choice of two branches; the label of the second one comes behind its code. -/
def choiceCode (labels rest : LabelSupply) (test thenCode elseCode : Ir.Expr) : Ir.Expr :=
  zeroAfter [.cjump test labels.label rest.label, .label labels.label, .exp thenCode,
    .jump labels.rest.label, .label rest.label, .exp elseCode, .label labels.rest.label]

/-- From a level and a supply of labels, a task is lowered to code and chunks, and labels are left.
Expressions have code; definitions have only chunks. -/
inductive Lowers (program : Program) :
    Nat → LabelSupply → Task → List Ir.Expr → List Chunk → LabelSupply → Prop where
  | node {level : Nat} {labels₁ labels₂ labels₃ : LabelSupply} {id : NodeId} {item : Expression}
      {codes : List Ir.Expr} {code : Ir.Expr} {chunks own : List Chunk}
      (hk : program.arena.kind? id = some (.expression item))
      (hchildren : Lowers program level labels₁ (.expressions item.children) codes chunks labels₂)
      (hcombines : Combines program level id item codes labels₂ code own labels₃) :
      Lowers program level labels₁ (.expression id) [code] (chunks ++ own) labels₃
  | choice {level : Nat} {labels₁ labels₂ labels₃ : LabelSupply}
      {id condition thenBranch elseBranch : NodeId} {test thenCode elseCode : Ir.Expr}
      {chunks others : List Chunk}
      (hk : program.arena.kind? id =
        some (.expression (.conditional condition thenBranch (some elseBranch))))
      (hfront : Lowers program level labels₁ (.expressions [condition, thenBranch])
        [test, thenCode] chunks labels₂)
      (helse : Lowers program level labels₂.rest.rest (.expression elseBranch) [elseCode] others
        labels₃) :
      Lowers program level labels₁ (.expression id)
        [choiceCode labels₂ labels₃ test thenCode elseCode] (chunks ++ others) labels₃.rest
  | whereClause {level : Nat} {labels₁ labels₂ labels₃ : LabelSupply} {id inner body : NodeId}
      {members : List NodeId} {code : Ir.Expr} {chunks others : List Chunk}
      (hk : program.arena.kind? id = some (.expression (.whereClause inner body)))
      (hd : program.arena.kind? inner = some (.definitions members))
      (hmembers : Lowers program level labels₁ (.definitions members) [] chunks labels₂)
      (hbody : Lowers program level labels₂ (.expression body) [code] others labels₃) :
      Lowers program level labels₁ (.expression id) [code] (chunks ++ others) labels₃
  | noExpressions {level : Nat} {labels : LabelSupply} :
      Lowers program level labels (.expressions []) [] [] labels
  | expressions {level : Nat} {labels₁ labels₂ labels₃ : LabelSupply} {id : NodeId}
      {ids : List NodeId} {code : Ir.Expr} {codes : List Ir.Expr} {chunks others : List Chunk}
      (hfirst : Lowers program level labels₁ (.expression id) [code] chunks labels₂)
      (hrest : Lowers program level labels₂ (.expressions ids) codes others labels₃) :
      Lowers program level labels₁ (.expressions (id :: ids)) (code :: codes) (chunks ++ others)
        labels₃
  | function {level : Nat} {labels₁ labels₂ : LabelSupply} {id result body : NodeId}
      {name : String} {parameters : List NodeId} {frame : Frame} {value : Ir.Expr}
      {chunks : List Chunk}
      (hk : program.arena.kind? id = some (.definition (.function name parameters result body)))
      (hf : program.layout.frames.get? id = some frame)
      (hbody : Lowers program frame.level labels₁ (.expression body) [value] chunks labels₂) :
      Lowers program level labels₁ (.definition id) []
        (chunks ++ [.code frame (.move (.memory Ir.framePointer) value)]) labels₂
  | storage {level : Nat} {labels : LabelSupply} {id written : NodeId} {name : String}
      {access : Access} (hk : program.arena.kind? id = some (.definition (.var name written)))
      (ha : program.layout.accesses.get? id = some access) :
      Lowers program level labels (.definition id) [] (storageChunks access) labels
  | type {level : Nat} {labels : LabelSupply} {id written : NodeId} {name : String}
      (hk : program.arena.kind? id = some (.definition (.type name written))) :
      Lowers program level labels (.definition id) [] [] labels
  | parameter {level : Nat} {labels : LabelSupply} {id written : NodeId} {name : String}
      (hk : program.arena.kind? id = some (.definition (.parameter name written))) :
      Lowers program level labels (.definition id) [] [] labels
  | noDefinitions {level : Nat} {labels : LabelSupply} :
      Lowers program level labels (.definitions []) [] [] labels
  | definitions {level : Nat} {labels₁ labels₂ labels₃ : LabelSupply} {id : NodeId}
      {ids : List NodeId} {chunks others : List Chunk}
      (hfirst : Lowers program level labels₁ (.definition id) [] chunks labels₂)
      (hrest : Lowers program level labels₂ (.definitions ids) [] others labels₃) :
      Lowers program level labels₁ (.definitions (id :: ids)) [] (chunks ++ others) labels₃

variable {program : Program} {id : NodeId} {ids : List NodeId} {item : Expression} {task : Task}
  {code : Ir.Expr} {codes : List Ir.Expr} {state between after : State}

/-- Labels are only taken. -/
theorem Combines.next_le {level : Nat} {labels rest : LabelSupply} {own : List Chunk}
    (h : Combines program level id item codes labels code own rest) : labels.next ≤ rest.next := by
  cases h <;> simp +arith

/-- Labels are only taken, in whatever is lowered. -/
theorem Lowers.next_le {level : Nat} {labels rest : LabelSupply} {chunks : List Chunk}
    (h : Lowers program level labels task codes chunks rest) : labels.next ≤ rest.next := by
  induction h with
  | node _ _ hcombines ih => exact Nat.le_trans ih hcombines.next_le
  | choice _ _ _ ihf ihe =>
    simp only [LabelSupply.next_rest] at ihe ⊢
    omega
  | whereClause _ _ _ _ ihm ihb => exact Nat.le_trans ihm ihb
  | expressions _ _ ihf ihr | definitions _ _ ihf ihr => exact Nat.le_trans ihf ihr
  | function _ _ _ ih => exact ih
  | noExpressions | noDefinitions | storage | type | parameter => exact Nat.le_refl _

/-- From one state to another, a task was lowered to code. -/
def Emits (program : Program) (state : State) (task : Task) (codes : List Ir.Expr)
    (after : State) : Prop :=
  ∃ chunks, Lowers program state.level state.labels task codes chunks after.labels ∧
    after.level = state.level ∧ after.chunks.toList = state.chunks.toList ++ chunks

/-- A step that stops keeps every promise. -/
theorem fail_runs {α : Type} {fault : Fault} {promised : α → State → Prop} :
    (fail program id fault).Runs Pass.Any state promised := trivial

/-- A step that stops for the passes before keeps every promise. -/
theorem broken_runs {α : Type} {message : String} {promised : α → State → Prop} :
    (broken program id message).Runs Pass.Any state promised := trivial

namespace Emits

theorem nil (state : State) : Emits program state (.expressions []) [] state :=
  ⟨[], .noExpressions, rfl, by simp⟩

theorem cons (hf : Emits program state (.expression id) [code] between)
    (hr : Emits program between (.expressions ids) codes after) :
    Emits program state (.expressions (id :: ids)) (code :: codes) after := by
  obtain ⟨chunks, hf, hlevel, hchunks⟩ := hf
  obtain ⟨others, hr, hlevel', hchunks'⟩ := hr
  rw [hlevel] at hr
  exact ⟨chunks ++ others, .expressions hf hr, hlevel'.trans hlevel, by simp [hchunks', hchunks]⟩

/-- One expression behind some others. -/
theorem snoc (hf : Emits program state (.expressions ids) codes between)
    (hr : Emits program between (.expression id) [code] after) :
    Emits program state (.expressions (ids ++ [id])) (codes ++ [code]) after := by
  induction ids generalizing state codes with
  | nil =>
    obtain ⟨chunks, hf, hlevel, hchunks⟩ := hf
    generalize hl : between.labels = labels at hf
    cases hf
    obtain ⟨others, hr, hlevel', hchunks'⟩ := hr
    rw [hl, hlevel] at hr
    refine ⟨others ++ [], .expressions hr .noExpressions, hlevel'.trans hlevel, ?_⟩
    simp [hchunks', hchunks]
  | cons first rest ih =>
    obtain ⟨chunks, hf, hlevel, hchunks⟩ := hf
    cases hf with
    | @expressions _ _ labels _ _ _ head tail front back hfirst hrest =>
      let reached : State := { state with labels, chunks := state.chunks ++ front.toArray }
      have hhead : Emits program state (.expression first) [head] reached :=
        ⟨front, hfirst, rfl, by simp [reached]⟩
      have htail : Emits program reached (.expressions rest) tail between :=
        ⟨back, hrest, hlevel, by simp [reached, hchunks]⟩
      exact hhead.cons (ih htail)

/-- An expression behind its operands. -/
theorem node (hk : program.arena.kind? id = some (.expression item)) {own : List Chunk}
    (hchildren : Emits program state (.expressions item.children) codes between)
    (hcombines : Combines program between.level id item codes between.labels code own after.labels)
    (hlevel : after.level = between.level)
    (hchunks : after.chunks.toList = between.chunks.toList ++ own) :
    Emits program state (.expression id) [code] after := by
  obtain ⟨chunks, hl, hb, hc⟩ := hchildren
  rw [hb] at hcombines
  exact ⟨chunks ++ own, .node hk hl hcombines, hlevel.trans hb, by simp [hchunks, hc]⟩

end Emits

/-- A name has the code of the value kept for its definition. -/
theorem lowerName_emits {word : String}
    (hk : program.arena.kind? id = some (.expression (.name word))) :
    (lowerName program id).Runs Pass.Any state fun code after =>
      Emits program state (.expression id) [code] after := by
  simp only [lowerName]
  cases hb : program.bindings.get? id with
  | none => exact broken_runs
  | some definition =>
    simp only [requireType, requireAccess]
    cases ht : program.types.get? definition with
    | none => exact broken_runs
    | some type =>
      cases ha : program.layout.accesses.get? definition with
      | none => exact broken_runs
      | some access =>
        have hcombines : Combines program state.level id (.name word) [] state.labels
            (valueAt state.level type access) [] state.labels := .name hb ht ha
        have hemits : Emits program state (.expression id) [valueAt state.level type access]
            state := .node hk (.nil state) hcombines rfl (by simp)
        cases access <;> simpa [valueAt] using hemits

/-- A literal is lowered to its value, or to the label of its characters. -/
theorem lowerLiteral_emits {value : String} {word : Atom}
    (hk : program.arena.kind? id = some (.expression (.literal value word))) :
    (lowerLiteral program id value word).Runs Pass.Any state fun code after =>
      Emits program state (.expression id) [code] after := by
  cases word with
  | integer =>
    simp only [lowerLiteral]
    cases hn : Text.signed? value with
    | none => exact broken_runs
    | some number => exact .node hk (.nil state) (.integer hn) rfl (by simp)
  | logical => exact .node hk (.nil state) .logical rfl (by simp)
  | string =>
    simp only [lowerLiteral, freshLabel, emit, Pass.runs_bind, Pass.runs_get, Pass.runs_modify,
      Pass.runs_pure]
    exact .node hk (.nil state) .string rfl (by simp)

section Node

variable {lower : NodeId → Lower Ir.Expr} (hlower : ∀ below state,
  (lower below).Runs Pass.Any state fun code after =>
    Emits program state (.expression below) [code] after)

include hlower

/-- Expressions are lowered one by one. -/
theorem mapM_emits : ∀ (ids : List NodeId) (state : State),
    (ids.mapM lower).Runs Pass.Any state fun codes after =>
      Emits program state (.expressions ids) codes after
  | [], state => by simpa using .nil state
  | id :: ids, state => by
    simp only [List.mapM_cons, Pass.runs_bind, Pass.runs_pure]
    refine (hlower id state).mono fun code between hf => ?_
    exact (mapM_emits ids between).mono fun codes after hr => hf.cons hr

/-- A call is lowered behind its arguments. -/
theorem lowerCall_emits {callee : String} {arguments : List NodeId}
    (hk : program.arena.kind? id = some (.expression (.call callee arguments))) :
    (lowerCall program lower id callee arguments).Runs Pass.Any state fun code after =>
      Emits program state (.expression id) [code] after := by
  simp only [lowerCall, Pass.runs_bind]
  refine (mapM_emits hlower arguments state).mono fun codes between hs => ?_
  cases hr : Builtin.isRoutine callee with
  | true => exact .node hk hs (.routine hr) rfl (by simp)
  | false =>
    simp only [Bool.false_eq_true, if_false]
    cases hb : program.bindings.get? id with
    | none => exact broken_runs
    | some function =>
      simp only [requireFrame]
      cases hf : program.layout.frames.get? function with
      | none => exact broken_runs
      | some frame =>
        simp only [Pass.runs_bind, Pass.runs_get, Pass.runs_pure]
        exact .node hk hs (.call hr hb hf) rfl (by simp)

/-- An operation is lowered behind its operands. -/
theorem lowerBinary_emits {operator : BinaryOperator} {left right : NodeId}
    (hk : program.arena.kind? id = some (.expression (.binary operator left right))) :
    (expressionCode program lower id (.binary operator left right)).Runs Pass.Any state
      fun code after => Emits program state (.expression id) [code] after := by
  simp only [expressionCode, Pass.runs_bind]
  refine (hlower left state).mono fun leftCode between hl => ?_
  refine (hlower right between).mono fun rightCode after hr => ?_
  have hs := hl.cons (hr.cons (.nil after))
  cases operator with
  | assign => exact .node hk hs .assign rfl (by simp)
  | index =>
    simp only [lowerBinary, requireType]
    cases ht : program.types.get? left with
    | none => exact broken_runs
    | some type =>
      simp only [Pass.runs_bind, Pass.runs_pure]
      cases he : type.element? with
      | none => exact broken_runs
      | some element =>
        dsimp only
        cases hsize : element.size? with
        | none => exact fail_runs
        | some size => exact .node hk hs (.index ht he hsize) rfl (by simp)
  | or | and | eq | neq | lt | gt | leq | geq | add | sub | mul | div | mod =>
    exact .node hk hs (.operation rfl) rfl (by simp)

/-- A choice draws two labels behind its first branch, and a third one behind its second branch. -/
theorem lowerConditional_emits {condition thenBranch : NodeId} {elseBranch : Option NodeId}
    (hk : program.arena.kind? id =
      some (.expression (.conditional condition thenBranch elseBranch))) :
    (lowerConditional lower condition thenBranch elseBranch).Runs Pass.Any state fun code after =>
      Emits program state (.expression id) [code] after := by
  simp only [lowerConditional, freshLabel, Pass.runs_bind, Pass.runs_get, Pass.runs_modify,
    Pass.runs_pure]
  refine (hlower condition state).mono fun test tested ht => ?_
  refine (hlower thenBranch tested).mono fun thenCode between hb => ?_
  have hs := ht.cons (hb.cons (.nil between))
  cases elseBranch with
  | none => exact .node hk hs .conditional rfl (by simp)
  | some branch =>
    simp only [Pass.runs_bind, Pass.runs_get, Pass.runs_modify, Pass.runs_pure]
    refine (hlower branch _).mono fun elseCode after he => ?_
    obtain ⟨chunks, hl, hlevel, hchunks⟩ := hs
    obtain ⟨others, he, hlevel', hchunks'⟩ := he
    dsimp only at he hlevel' hchunks'
    rw [hlevel] at he
    exact ⟨chunks ++ others, .choice hk hl he, hlevel'.trans hlevel, by simp [hchunks', hchunks]⟩

/-- A loop under a condition draws its labels behind its parts. -/
theorem lowerWhile_emits {condition body : NodeId}
    (hk : program.arena.kind? id = some (.expression (.whileLoop condition body))) :
    (lowerWhile lower condition body).Runs Pass.Any state fun code after =>
      Emits program state (.expression id) [code] after := by
  simp only [lowerWhile, freshLabel, Pass.runs_bind, Pass.runs_get, Pass.runs_modify,
    Pass.runs_pure]
  refine (hlower condition state).mono fun test tested ht => ?_
  refine (hlower body tested).mono fun code between hb => ?_
  exact .node hk (ht.cons (hb.cons (.nil between))) .whileLoop rfl (by simp)

/-- A counting loop draws its labels behind its parts. -/
theorem lowerFor_emits {counter low high step body : NodeId}
    (hk : program.arena.kind? id = some (.expression (.forLoop counter low high step body))) :
    (lowerFor lower counter low high step body).Runs Pass.Any state fun code after =>
      Emits program state (.expression id) [code] after := by
  simp only [lowerFor, freshLabel, Pass.runs_bind, Pass.runs_get, Pass.runs_modify,
    Pass.runs_pure]
  refine (hlower counter state).mono fun counterCode counted hc => ?_
  refine (hlower low counted).mono fun lowCode lowered hl => ?_
  refine (hlower high lowered).mono fun highCode bounded hh => ?_
  refine (hlower step bounded).mono fun stepCode stepped hs => ?_
  refine (hlower body stepped).mono fun code between hb => ?_
  have hall := hc.cons (hl.cons (hh.cons (hs.cons (hb.cons (.nil between)))))
  exact .node hk hall .forLoop rfl (by simp)

/-- A block is lowered through its expressions, of which the last one gives the value. -/
theorem lowerBlock_emits {expressions : List NodeId}
    (hk : program.arena.kind? id = some (.expression (.block expressions))) :
    (lowerBlock program lower id expressions).Runs Pass.Any state fun code after =>
      Emits program state (.expression id) [code] after := by
  simp only [lowerBlock]
  cases hlast : expressions.getLast? with
  | none => exact broken_runs
  | some last =>
    obtain ⟨front, rfl⟩ := List.getLast?_eq_some_iff.mp hlast
    have hstatements : ∀ (ids : List NodeId) (state : State),
        (ids.mapM fun expression => do return Ir.Stmt.exp (← lower expression)).Runs Pass.Any state
          fun statements between => ∃ codes : List Ir.Expr, statements = codes.map Ir.Stmt.exp ∧
            Emits program state (.expressions ids) codes between := by
      intro ids
      induction ids with
      | nil => intro state; simpa using .nil state
      | cons first rest ih =>
        intro state
        simp only [List.mapM_cons, Pass.runs_bind, Pass.runs_pure] at ih ⊢
        refine (hlower first state).mono fun code between hf => ?_
        refine (ih between).mono fun statements after hr => ?_
        obtain ⟨codes, rfl, hr⟩ := hr
        exact ⟨code :: codes, rfl, hf.cons hr⟩
    simp only [Pass.runs_bind, List.dropLast_concat]
    refine (hstatements front state).mono fun statements between hs => ?_
    obtain ⟨codes, rfl, hs⟩ := hs
    refine (hlower last between).mono fun value after hl => ?_
    exact .node hk (hs.snoc hl) .block rfl (by simp)

/-- A definition is lowered: a function at the level of its frame, all else by itself. -/
theorem lowerDefinition_emits :
    (lowerDefinition program lower id).Runs Pass.Any state fun _ after =>
      Emits program state (.definition id) [] after := by
  simp only [lowerDefinition]
  cases hd : program.arena.definition? id with
  | none => exact broken_runs
  | some definition =>
    have hk := Arena.kind?_of_definition? hd
    cases definition with
    | type => exact ⟨[], .type hk, rfl, by simp⟩
    | parameter => exact ⟨[], .parameter hk, rfl, by simp⟩
    | var =>
      simp only [requireAccess]
      cases ha : program.layout.accesses.get? id with
      | none => exact broken_runs
      | some access =>
        have hv : Lowers program state.level state.labels (.definition id) []
            (storageChunks access) state.labels := .storage hk ha
        cases access <;> exact ⟨_, hv, rfl, by simp [storageChunks]⟩
    | function name parameters result body =>
      simp only [lowerFunction, requireFrame]
      cases hf : program.layout.frames.get? id with
      | none => exact broken_runs
      | some frame =>
        simp only [atLevel, Pass.runs_bind, Pass.runs_pure, Pass.runs_get, Pass.runs_modify,
          Pass.runs_leaving]
        refine (hlower body _).mono fun value lowered hl => ?_
        obtain ⟨chunks, hbody, hlevel, hchunks⟩ := hl
        simp only [record, Pass.runs_bind, Pass.runs_get]
        split
        · simp only [Pass.runs_set, emit, Pass.runs_modify]
          refine ⟨_, .function hk hf hbody, rfl, ?_⟩
          simp only [Array.toList_push, hchunks, List.append_assoc]
        · exact broken_runs

/-- Definitions are lowered one by one. -/
theorem forM_emits : ∀ (ids : List NodeId) (state : State),
    (ids.forM (lowerDefinition program lower)).Runs Pass.Any state fun _ after =>
      Emits program state (.definitions ids) [] after
  | [], state => by simpa using ⟨[], .noDefinitions, rfl, by simp⟩
  | id :: ids, state => by
    have ih := forM_emits ids
    simp only [List.forM_eq_forM, List.forM_cons, Pass.runs_bind] at ih ⊢
    refine (lowerDefinition_emits hlower).mono fun _ between hf => ?_
    refine (ih between).mono fun _ after hr => ?_
    obtain ⟨chunks, hf, hlevel, hchunks⟩ := hf
    obtain ⟨others, hr, hlevel', hchunks'⟩ := hr
    rw [hlevel] at hr
    exact ⟨chunks ++ others, .definitions hf hr, hlevel'.trans hlevel, by simp [hchunks', hchunks]⟩

end Node

/-- Lowering an expression goes by the rules, whatever the bound on the depth. -/
theorem lowerWithin_emits : ∀ (fuel : Nat) (id : NodeId) (state : State),
    (lowerWithin program fuel id).Runs Pass.Any state fun code after =>
      Emits program state (.expression id) [code] after
  | 0, _, _ => broken_runs
  | fuel + 1, id, state => by
    have hlower := lowerWithin_emits fuel
    simp only [lowerWithin, lowerExpression]
    cases he : program.arena.expression? id with
    | none => exact broken_runs
    | some item =>
      have hk := Arena.kind?_of_expression? he
      have hcode : (expressionCode program (lowerWithin program fuel) id item).Runs Pass.Any state
          fun code after => Emits program state (.expression id) [code] after := by
        cases item with
        | literal => exact lowerLiteral_emits hk
        | name => exact lowerName_emits hk
        | call => exact lowerCall_emits hlower hk
        | binary => exact lowerBinary_emits hlower hk
        | block => exact lowerBlock_emits hlower hk
        | conditional => exact lowerConditional_emits hlower hk
        | whileLoop => exact lowerWhile_emits hlower hk
        | forLoop => exact lowerFor_emits hlower hk
        | unary operator operand =>
          simp only [expressionCode, Pass.runs_bind, Pass.runs_pure]
          refine (hlower operand state).mono fun code after ho => ?_
          exact .node hk (ho.cons (.nil after)) .unary rfl (by simp)
        | whereClause inner body =>
          simp only [expressionCode, Pass.runs_bind, lowerDefinitions]
          cases hd : program.arena.kind? inner with
          | none => exact broken_runs
          | some kind =>
            cases kind with
            | definition | expression | type => exact broken_runs
            | definitions members =>
              refine (forM_emits hlower members state).mono fun _ between hm => ?_
              refine (hlower body between).mono fun code after hb => ?_
              obtain ⟨chunks, hm, hlevel, hchunks⟩ := hm
              obtain ⟨others, hb, hlevel', hchunks'⟩ := hb
              rw [hlevel] at hb
              exact ⟨chunks ++ others, .whereClause hk hd hm hb, hlevel'.trans hlevel,
                by simp [hchunks', hchunks]⟩
      simp only [Pass.runs_bind]
      refine hcode.mono fun code between hc => ?_
      simp only [record, Pass.runs_bind, Pass.runs_get]
      split
      · exact hc
      · exact broken_runs

/-- A program is lowered by the rules: its chunks are those of its top-level definitions. -/
theorem ofProgram_lowers {root : NodeId} {members : List NodeId} {labels : LabelSupply}
    {trees : NodeTable Ir.Tree} {chunks : Array Chunk} (hr : program.arena.root = some root)
    (hd : program.arena.kind? root = some (.definitions members))
    (h : ofProgram program labels = .ok (trees, chunks)) :
    ∃ rest, Lowers program 0 labels (.definitions members) [] chunks.toList rest := by
  simp only [ofProgram, hr] at h
  have hrun : (members.forM (lowerDefinition program (lower program))).Runs Pass.Any
      (.initial labels) fun _ after =>
        Emits program (.initial labels) (.definitions members) [] after :=
    forM_emits (lowerWithin_emits program.arena.depthBound) members _
  simp only [lowerDefinitions, hd] at h
  obtain ⟨_, after, hemits, he⟩ := hrun.of_map_ok h
  obtain ⟨found, hl, _, hchunks⟩ := hemits
  cases he
  refine ⟨after.labels, ?_⟩
  rw [hchunks]
  exact hl

end Pins.Lowering
