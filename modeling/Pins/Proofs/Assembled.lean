import Mathlib.Data.List.Forall2
import Pins.Proofs.Histories
import Pins.Proofs.Kept

/-!
# Code is made of code that is kept

Lowering keeps the code of an expression under its number and hands it on to the expression above,
which makes its own code of it. So the code of a flat expression, one that neither branches nor
opens a scope, is made of the code that is kept for the expressions below it
(`Compilation.exists_assembled`).

What is kept stays. This is shown for any preorder that labels, chunks and the code of functions go
along (`Bears`): every way of lowering an expression then goes along it as well
(`lowerWithin_moves`).
-/

namespace Pins

/-- The expression is a literal or a name, or computed from the values of all its operands. -/
def Expression.isFlat : Expression → Bool
  | literal .. | name _ | call .. | binary .. | unary .. => true
  | block _ | forLoop .. | whileLoop .. | conditional .. | whereClause .. => false

namespace Lowering

open Pass (Moves)

variable {program : Program} {rel : State → State → Prop} {id : NodeId} {ids : List NodeId}
  {item : Expression} {code : Ir.Expr} {codes : List Ir.Expr} {state : State}

/-- A relation of states along which labels are drawn, chunks are added and the code of functions is
kept, at any level. -/
structure Bears (rel : State → State → Prop) : Prop where
  /-- A label is drawn. -/
  label : ∀ state, rel state { state with labels := state.labels.rest }
  /-- A chunk is added. -/
  chunk : ∀ state chunk, rel state { state with chunks := state.chunks.push chunk }
  /-- The level is another one for a while. -/
  level : ∀ {state after} level, rel { state with level } after →
    rel state { after with level := state.level }
  /-- The code of a function is kept. -/
  code : ∀ {state id body trees}, state.trees.store? id (.stmt body) = some trees →
    rel state { state with trees }

section Moves

variable [IsPreorder State rel]

theorem broken_moves {α : Type} {message : String} :
    Moves rel (broken program id message : Lower α) := .throw _

theorem requireType_moves : Moves rel (requireType program id) := by
  unfold requireType
  split
  · exact .pure _
  · exact broken_moves

theorem requireFrame_moves : Moves rel (requireFrame program id) := by
  unfold requireFrame
  split
  · exact .pure _
  · exact broken_moves

theorem requireAccess_moves : Moves rel (requireAccess program id) := by
  unfold requireAccess
  split
  · exact .pure _
  · exact broken_moves

omit [IsPreorder State rel] in
theorem freshLabel_moves (hb : Bears rel) : Moves rel freshLabel := fun state => hb.label state

omit [IsPreorder State rel] in
theorem emit_moves (hb : Bears rel) (chunk : Chunk) : Moves rel (emit chunk) :=
  .modify fun state => hb.chunk state chunk

/-- Code is kept unless there is some already. -/
theorem record_moves {tree : Ir.Tree}
    (h : ∀ trees, state.trees.store? id tree = some trees → rel state { state with trees }) :
    rel state (Pass.reached (record program id tree state)) := by
  rw [record, Pass.reached_get_bind]
  cases hs : state.trees.store? id tree with
  | some trees => exact h trees hs
  | none => exact refl_of rel state

variable {lower : NodeId → Lower Ir.Expr} (hb : Bears rel)
  (hlower : ∀ below, Moves rel (lower below))

include hb hlower

/-- A function is lowered at its own level. -/
theorem lowerFunction_moves {body : NodeId} :
    Moves rel (lowerFunction program lower id body) := by
  refine requireFrame_moves.bind fun frame => ?_
  have hlevel : Moves rel (atLevel frame.level (lower body)) := by
    intro state
    have hstart : atLevel frame.level (lower body) state =
        Pass.leaving (fun after => { after with level := state.level }) (lower body)
          { state with level := frame.level } := rfl
    rw [hstart, Pass.reached_leaving]
    exact hb.level frame.level (hlower body _)
  refine hlevel.bind fun value => ?_
  have hrecord : Moves rel (record program id (.stmt (.move (.memory Ir.framePointer) value))) :=
    fun _ => record_moves fun _ hstore => hb.code hstore
  exact hrecord.bind fun _ => emit_moves hb _

/-- A definition is lowered. -/
theorem lowerDefinition_moves : Moves rel (lowerDefinition program lower id) := by
  unfold lowerDefinition
  split
  · exact broken_moves
  · exact lowerFunction_moves hb hlower
  · refine requireAccess_moves.bind fun access => ?_
    cases access with
    | global => exact emit_moves hb _
    | inFrame | parameter => exact .pure _
  · exact .pure _

/-- The code of an expression is found. -/
theorem expressionCode_moves : Moves rel (expressionCode program lower id item) := by
  cases item with
  | literal value atom =>
    cases atom with
    | logical => exact .pure _
    | string => exact (freshLabel_moves hb).bind fun _ => (emit_moves hb _).bind fun _ => .pure _
    | integer =>
      simp only [expressionCode, lowerLiteral]
      split
      · exact .pure _
      · exact broken_moves
  | name word =>
    simp only [expressionCode, lowerName]
    split
    · exact broken_moves
    · refine requireType_moves.bind fun type => requireAccess_moves.bind fun access => ?_
      cases access with
      | global => exact .pure _
      | inFrame | parameter => exact Moves.get.bind fun _ => .pure _
  | call callee arguments =>
    simp only [expressionCode, lowerCall]
    refine (Moves.mapM fun argument _ => hlower argument).bind fun codes => ?_
    split
    · exact .pure _
    · split
      · exact broken_moves
      · exact requireFrame_moves.bind fun _ => Moves.get.bind fun _ => .pure _
  | binary operator left right =>
    simp only [expressionCode]
    refine (hlower left).bind fun leftCode => (hlower right).bind fun rightCode => ?_
    cases operator with
    | assign => exact .pure _
    | index =>
      refine requireType_moves.bind fun type => ?_
      split
      · exact broken_moves
      · split
        · exact .throw _
        · exact .pure _
    | or | and | eq | neq | lt | gt | leq | geq | add | sub | mul | div | mod => exact .pure _
  | unary operator operand => exact (hlower operand).bind fun _ => .pure _
  | block expressions =>
    simp only [expressionCode, lowerBlock]
    split
    · exact broken_moves
    · next last _ =>
      refine (Moves.mapM fun expression _ => (hlower expression).bind fun _ => .pure _).bind
        fun _ => ?_
      exact (hlower last).bind fun _ => .pure _
  | conditional condition thenBranch elseBranch =>
    simp only [expressionCode, lowerConditional]
    refine (hlower condition).bind fun _ => (hlower thenBranch).bind fun _ => ?_
    refine (freshLabel_moves hb).bind fun _ => (freshLabel_moves hb).bind fun _ => ?_
    cases elseBranch with
    | none => exact .pure _
    | some branch =>
      exact (hlower branch).bind fun _ => (freshLabel_moves hb).bind fun _ => .pure _
  | whileLoop condition body =>
    simp only [expressionCode, lowerWhile]
    refine (hlower condition).bind fun _ => (hlower body).bind fun _ => ?_
    exact (freshLabel_moves hb).bind fun _ => (freshLabel_moves hb).bind fun _ =>
      (freshLabel_moves hb).bind fun _ => .pure _
  | forLoop counter low high step body =>
    simp only [expressionCode, lowerFor]
    refine (hlower counter).bind fun _ => (hlower low).bind fun _ => (hlower high).bind fun _ => ?_
    refine (hlower step).bind fun _ => (hlower body).bind fun _ => ?_
    exact (freshLabel_moves hb).bind fun _ => (freshLabel_moves hb).bind fun _ =>
      (freshLabel_moves hb).bind fun _ => .pure _
  | whereClause inner body =>
    have hinner : Moves rel (lowerDefinitions program lower inner) := by
      unfold lowerDefinitions
      split
      · exact .forM fun member _ => lowerDefinition_moves hb hlower
      · exact broken_moves
    exact hinner.bind fun _ => hlower body

end Moves

/-- The code of every one of some expressions is kept. -/
def KeepsAll (trees : NodeTable Ir.Tree) (ids : List NodeId) (codes : List Ir.Expr) : Prop :=
  List.Forall₂ (fun id code => trees.get? id = some (.expr code)) ids codes

/-- The code kept for a flat expression is made of code that is kept. -/
def Assembled (program : Program) (trees : NodeTable Ir.Tree) : Prop :=
  ∀ id item code, program.arena.kind? id = some (.expression item) → item.isFlat = true →
    trees.get? id = some (.expr code) → ∃ level labels codes own rest,
      KeepsAll trees item.children codes ∧ Combines program level id item codes labels code own rest

/-- What is kept stays, and code goes on being made of code that is kept. -/
structure Grows (program : Program) (before after : State) : Prop where
  /-- What is kept stays. -/
  kept : ∀ id tree, before.trees.get? id = some tree → after.trees.get? id = some tree
  /-- Code is made of code that is kept. -/
  assembled : Assembled program before.trees → Assembled program after.trees

variable {before after : State}

namespace Grows

instance : IsPreorder State (Grows program) where
  refl _ := ⟨fun _ _ h => h, fun h => h⟩
  trans _ _ _ hf hs :=
    ⟨fun id tree h => hs.kept id tree (hf.kept id tree h), hs.assembled ∘ hf.assembled⟩

/-- A tree is kept that is made of code that is kept. -/
theorem store {tree : Ir.Tree} {trees : NodeTable Ir.Tree}
    (hs : state.trees.store? id tree = some trees)
    (hm : ∀ item code, tree = .expr code → program.arena.kind? id = some (.expression item) →
      item.isFlat = true → ∃ level labels codes own rest,
        KeepsAll state.trees item.children codes ∧
          Combines program level id item codes labels code own rest) :
    Grows program state { state with trees } := by
  have hkept : ∀ id tree, state.trees.get? id = some tree → trees.get? id = some tree :=
    fun _ _ => NodeTable.get?_of_store? hs
  refine ⟨hkept, fun ha other item code hk hp hg => ?_⟩
  have hmade : ∃ level labels codes own rest, KeepsAll state.trees item.children codes ∧
      Combines program level other item codes labels code own rest := by
    rw [NodeTable.get?_store? hs] at hg
    split at hg
    · next hsame =>
      subst hsame
      exact hm item code (Option.some.inj hg) hk hp
    · exact ha other item code hk hp hg
  obtain ⟨level, labels, codes, own, rest, hall, hcombines⟩ := hmade
  exact ⟨level, labels, codes, own, rest, hall.imp fun id code => hkept id (.expr code), hcombines⟩

/-- Drawing labels, adding chunks and lowering functions keeps what there is. -/
theorem bears : Bears (Grows program) where
  label _ := ⟨fun _ _ h => h, id⟩
  chunk _ _ := ⟨fun _ _ h => h, id⟩
  level _ h := ⟨h.kept, h.assembled⟩
  code hs := .store hs fun _ _ he => nomatch he

end Grows

/-- An expression that was lowered has its code kept. -/
theorem lowerWithin_keeps : ∀ (fuel : Nat) (id : NodeId) (state : State),
    (lowerWithin program fuel id).Runs Pass.Any state fun code after =>
      after.trees.get? id = some (.expr code)
  | 0, _, _ => broken_runs
  | fuel + 1, id, state => by
    simp only [lowerWithin, lowerExpression]
    split
    · exact broken_runs
    · simp only [Pass.runs_bind, record, Pass.runs_get]
      refine .of_forall fun code between => ?_
      split
      · next trees hs => exact (NodeTable.get?_store? hs id).trans (if_pos rfl)
      · exact broken_runs

section Node

variable {lower : NodeId → Lower Ir.Expr} (hlower : ∀ below, Moves (Grows program) (lower below))
  (hkeeps : ∀ below state, (lower below).Runs Pass.Any state fun code after =>
    after.trees.get? below = some (.expr code))

include hlower hkeeps

/-- Of expressions that are lowered one by one, all codes are kept in the end. -/
theorem mapM_keeps : (ids.mapM lower).Runs Pass.Any state fun codes after =>
    KeepsAll after.trees ids codes := by
  induction ids generalizing state with
  | nil => exact .nil
  | cons first others ih =>
    simp only [List.mapM_cons, Pass.runs_bind, Pass.runs_pure]
    refine (hkeeps first state).mono fun code between hfirst => ?_
    have hmoves : Moves (Grows program) (others.mapM lower) := .mapM fun other _ => hlower other
    exact (hmoves.joins ih).mono fun codes after ha =>
      .cons (ha.2.kept first (.expr code) hfirst) ha.1

/-- The code of a flat expression is made of code that is kept. -/
theorem expressionCode_made (hp : item.isFlat = true) :
    (expressionCode program lower id item).Runs Pass.Any state fun code after =>
      ∃ level labels codes own rest, KeepsAll after.trees item.children codes ∧
        Combines program level id item codes labels code own rest := by
  cases item with
  | block | forLoop | whileLoop | conditional | whereClause => cases hp
  | literal value atom =>
    cases atom with
    | logical => exact ⟨0, state.labels, [], [], _, .nil, .logical⟩
    | string => exact ⟨0, state.labels, [], _, _, .nil, .string⟩
    | integer =>
      simp only [expressionCode, lowerLiteral]
      split
      · next hn => exact ⟨0, state.labels, [], [], _, .nil, .integer hn⟩
      · exact broken_runs
  | name word =>
    simp only [expressionCode, lowerName]
    cases hb : program.bindings.get? id with
    | none => exact broken_runs
    | some definition =>
      simp only [requireType, requireAccess]
      cases ht : program.types.get? definition with
      | none => exact broken_runs
      | some type =>
        cases ha : program.layout.accesses.get? definition with
        | none => exact broken_runs
        | some access =>
          have hcombines : Combines program state.level id (.name word) [] state.labels
              (valueAt state.level type access) [] state.labels := .name hb ht ha
          cases access <;> exact ⟨_, _, [], _, _, .nil, hcombines⟩
  | call callee arguments =>
    simp only [expressionCode, lowerCall, Pass.runs_bind]
    refine (mapM_keeps hlower hkeeps).mono fun codes between hc => ?_
    cases hr : Builtin.isRoutine callee with
    | true => exact ⟨0, between.labels, codes, [], _, hc, .routine hr⟩
    | false =>
      simp only [Bool.false_eq_true, if_false]
      cases hb : program.bindings.get? id with
      | none => exact broken_runs
      | some function =>
        simp only [requireFrame]
        cases hf : program.layout.frames.get? function with
        | none => exact broken_runs
        | some frame =>
          exact ⟨between.level, between.labels, codes, [], _, hc, .call hr hb hf⟩
  | binary operator left right =>
    simp only [expressionCode, Pass.runs_bind]
    refine (hkeeps left state).mono fun leftCode between hl => ?_
    refine ((hlower right).joins (hkeeps right between)).mono fun rightCode after hr => ?_
    have hall : KeepsAll after.trees [left, right] [leftCode, rightCode] :=
      .cons (hr.2.kept left (.expr leftCode) hl) (.cons hr.1 .nil)
    cases operator with
    | assign => exact ⟨0, after.labels, _, [], _, hall, .assign⟩
    | index =>
      simp only [lowerBinary, requireType]
      cases ht : program.types.get? left with
      | none => exact broken_runs
      | some type =>
        simp only [Pass.runs_bind, Pass.runs_pure]
        cases he : type.element? with
        | none => exact broken_runs
        | some element =>
          dsimp only
          cases hsize : element.size? with
          | none => exact fail_runs
          | some size => exact ⟨0, after.labels, _, [], _, hall, .index ht he hsize⟩
    | or | and | eq | neq | lt | gt | leq | geq | add | sub | mul | div | mod =>
      exact ⟨0, after.labels, _, [], _, hall, .operation rfl⟩
  | unary operator operand =>
    simp only [expressionCode, Pass.runs_bind, Pass.runs_pure]
    exact (hkeeps operand state).mono fun code after ha =>
      ⟨0, after.labels, [code], [], _, .cons ha .nil, .unary⟩

end Node

/-- Lowering an expression keeps what is kept and makes its code of code that is kept. -/
theorem lowerWithin_grows : ∀ (fuel : Nat) (id : NodeId),
    Moves (Grows program) (lowerWithin program fuel id)
  | 0, _ => broken_moves
  | fuel + 1, id => by
    have hlower := lowerWithin_grows fuel
    simp only [lowerWithin, lowerExpression]
    cases he : program.arena.expression? id with
    | none => exact broken_moves
    | some item =>
      have hk := Arena.kind?_of_expression? he
      intro state
      have hmoves : Moves (Grows program)
          (expressionCode program (lowerWithin program fuel) id item) :=
        expressionCode_moves Grows.bears hlower
      rw [Pass.reached_bind]
      cases hrun : expressionCode program (lowerWithin program fuel) id item state with
      | error diagnostic between => simpa only [hrun, Pass.reached_error] using hmoves state
      | ok code between =>
        have hfirst : Grows program state between := by
          simpa only [hrun, Pass.reached_ok] using hmoves state
        have hrecord : Grows program between
            (Pass.reached (record program id (.expr code) between)) := by
          refine record_moves fun trees hs => .store hs fun item' code' hc hk' hp => ?_
          cases hc
          cases hk.symm.trans hk'
          exact (expressionCode_made hlower (lowerWithin_keeps fuel) hp).of_ok hrun
        refine trans_of (Grows program) hfirst ?_
        dsimp only
        rw [Pass.reached_bind]
        cases hr : record program id (.expr code) between with
        | error diagnostic after => simpa only [hr, Pass.reached_error] using hrecord
        | ok value after =>
          simp only [hr, Pass.reached_ok] at hrecord
          exact hrecord

/-- The code of a program is made of code that is kept. -/
theorem ofProgram_assembled {labels : LabelSupply} {trees : NodeTable Ir.Tree}
    {chunks : Array Chunk} (h : ofProgram program labels = .ok (trees, chunks)) :
    Assembled program trees := by
  have hnone : Assembled program (NodeTable.empty : NodeTable Ir.Tree) := by
    intro id item code _ _ hg
    simp at hg
  unfold ofProgram at h
  split at h
  · cases h
    exact hnone
  · next root _ =>
    have hmoves : Moves (Grows program) (lowerDefinitions program (lower program) root) := by
      unfold lowerDefinitions
      split
      · exact .forM fun member _ =>
          lowerDefinition_moves Grows.bears (lowerWithin_grows program.arena.depthBound)
      · exact broken_moves
    obtain ⟨_, after, hgrows, he⟩ := (hmoves.runs (.initial labels)).of_map_ok h
    cases he
    exact hgrows.assembled hnone

/-- Code is made of the codes of operands in one way only. -/
theorem Combines.codes_unique {level level' : Nat} {code' : Ir.Expr} {codes' : List Ir.Expr}
    {labels labels' rest rest' : LabelSupply} {own own' : List Chunk}
    (h : Combines program level id item codes labels code own rest)
    (h' : Combines program level' id item codes' labels' code' own' rest')
    (hp : item.isFlat = true) (he : code = code') : codes = codes' := by
  cases h with
  | block | conditional | whileLoop | forLoop => cases hp
  | integer | logical | string | name =>
    cases h'
    rfl
  | routine hr =>
    cases h' with
    | routine => cases he; rfl
    | call hr' => cases hr.symm.trans hr'
  | call hr =>
    cases h' with
    | routine hr' => cases hr.symm.trans hr'
    | call =>
      obtain ⟨_, hcall⟩ := Ir.Expr.eseq.inj he
      exact (List.cons.inj (Ir.Expr.call.inj hcall).2).2
  | operation ho =>
    cases h' with
    | operation => cases he; rfl
    | index | assign => cases ho
  | index ht hi hs =>
    cases h' with
    | operation ho => cases ho
    | index ht' hi' hs' =>
      cases ht.symm.trans ht'
      cases hi.symm.trans hi'
      unfold indexed at he
      split at he <;> cases he <;> rfl
  | assign =>
    cases h' with
    | operation ho => cases ho
    | assign => cases he; rfl
  | @unary operator =>
    cases h'
    cases operator <;> cases he <;> rfl

end Lowering

namespace Compilation

variable {file source : String} {compilation : Compilation} {id : NodeId} {item : Expression}

/-- A flat expression of a compiled source has its code kept, which is made of the code kept for
the expressions below it, at the level of the function it stands in. -/
theorem exists_assembled (h : ofSource file source = .ok compilation)
    (hk : compilation.program.arena.kind? id = some (.expression item))
    (hp : item.isFlat = true) :
    ∃ code outer level labels codes own rest, compilation.trees.get? id = some (.expr code) ∧
      compilation.program.arena.Encloses outer id ∧ compilation.program.arena.Level outer level ∧
      Lowering.KeepsAll compilation.trees item.children codes ∧
      Lowering.Combines compilation.program level id item codes labels code own rest := by
  obtain ⟨code, outer, level, labels, chunks, rest, hcode, he, hl, hlowers⟩ := exists_kept h hk
  have hassembled : Lowering.Assembled compilation.program compilation.trees := by
    obtain ⟨_, _, _, _, ha⟩ := ofSource_eq_ok h
    obtain ⟨_, _, _, _, _, _, _, hprogram, he⟩ := ofArena_eq_ok ha
    rw [← he] at hprogram
    exact Lowering.ofProgram_assembled hprogram
  obtain ⟨_, _, codes, _, _, hall, hmade⟩ := hassembled id item code hk hp hcode
  cases hlowers with
  | node hk' hchildren hcombines =>
    cases hk.symm.trans hk'
    obtain rfl := hmade.codes_unique hcombines hp rfl
    exact ⟨code, outer, level, _, codes, _, _, hcode, he, hl, hall, hcombines⟩
  | choice hk' | whereClause hk' =>
    cases hk.symm.trans hk'
    cases hp

end Compilation

end Pins
