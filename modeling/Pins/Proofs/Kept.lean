import Pins.Proofs.Compiled

/-!
# The code that is kept

Lowering keeps the code of every expression under its number. What is kept was lowered by the rules
of `Lowers`, at the level of the function the expression stands in (`Compilation.ofSource_kept`):
the level the pass carries along is the one that the frame of that function has.
-/

namespace Pins

namespace Lowering

variable {program : Program} {id : NodeId} {outer : Option NodeId} {level : Nat} {state : State}

/-- The code kept for an expression is what the rules make of it at the level it stands at. -/
def KeptRight (program : Program) (trees : NodeTable Ir.Tree) : Prop :=
  ∀ id code, trees.get? id = some (.expr code) → ∃ outer level labels chunks rest,
    program.arena.Encloses outer id ∧ program.arena.Level outer level ∧
      Lowers program level labels (.expression id) [code] chunks rest

/-- A step lowers at a level: it ends at that level if it begins there, and keeps code rightly. -/
def Preserves {α : Type} (program : Program) (level : Nat) (step : Lower α) : Prop :=
  ∀ state : State, state.level = level → KeptRight program state.trees →
    step.Runs Pass.Any state fun _ after =>
      after.level = level ∧ KeptRight program after.trees

namespace Preserves

variable {α β : Type}

theorem pure (value : α) : Preserves program level (Pure.pure value : Lower α) :=
  fun _ hlevel hkept => ⟨hlevel, hkept⟩

theorem bind {step : Lower α} {next : α → Lower β} (h : Preserves program level step)
    (hn : ∀ value, Preserves program level (next value)) :
    Preserves program level (step >>= next) := by
  intro state hlevel hkept
  rw [Pass.runs_bind]
  exact (h state hlevel hkept).mono fun value after ha => hn value after ha.1 ha.2

theorem mapM {ι : Type} {step : ι → Lower β} : ∀ {members : List ι},
    (∀ member ∈ members, Preserves program level (step member)) →
    Preserves program level (members.mapM step)
  | [], _ => by simpa using .pure []
  | member :: others, h => by
    simp only [List.mapM_cons]
    refine (h member List.mem_cons_self).bind fun _ => ?_
    exact (mapM fun other hm => h other (List.mem_cons_of_mem _ hm)).bind fun _ => .pure _

theorem forM {ι : Type} {step : ι → Lower PUnit} {members : List ι}
    (h : ∀ member ∈ members, Preserves program level (step member)) :
    Preserves program level (members.forM step) := by
  intro state hlevel hkept
  let kept : State → Prop := fun after => after.level = level ∧ KeptRight program after.trees
  have hk : kept state := ⟨hlevel, hkept⟩
  exact Pass.runs_forM (fun member hm state hk => h member hm state hk.1 hk.2) hk

/-- A step that stops has nothing to keep. -/
theorem broken {message : String} : Preserves program level (broken program id message : Lower α) :=
  fun _ _ _ => trivial

/-- Asking for the state keeps no code. -/
theorem get : Preserves program level (MonadState.get : Lower State) :=
  fun _ hlevel hkept => ⟨hlevel, hkept⟩

/-- Drawing a label keeps no code. -/
theorem freshLabel : Preserves program level freshLabel :=
  fun _ hlevel hkept => ⟨hlevel, hkept⟩

/-- Adding a chunk keeps no code. -/
theorem emit (chunk : Chunk) : Preserves program level (emit chunk) :=
  fun _ hlevel hkept => ⟨hlevel, hkept⟩

/-- The type of a node is asked for. -/
theorem requireType : Preserves program level (requireType program id) := by
  unfold Lowering.requireType
  split
  · exact .pure _
  · exact .broken

/-- The frame of a function is asked for. -/
theorem requireFrame : Preserves program level (requireFrame program id) := by
  unfold Lowering.requireFrame
  split
  · exact .pure _
  · exact .broken

/-- The access of a definition is asked for. -/
theorem requireAccess : Preserves program level (requireAccess program id) := by
  unfold Lowering.requireAccess
  split
  · exact .pure _
  · exact .broken

end Preserves

section Node

variable {lower : NodeId → Lower Ir.Expr} (hp : Prepared program)
  (hlower : ∀ below outer level, program.arena.Encloses outer below →
    program.arena.Level outer level → Preserves program level (lower below))
  (he : program.arena.Encloses outer id) (hl : program.arena.Level outer level)

include hp hlower

/-- The body of a function is lowered at the level of its frame. -/
theorem lowerDefinition_preserves (he : program.arena.Encloses outer id) :
    Preserves program level (lowerDefinition program lower id) := by
  unfold lowerDefinition
  cases hd : program.arena.definition? id with
  | none => exact .broken
  | some definition =>
    have hk := Arena.kind?_of_definition? hd
    cases definition with
    | type | parameter => exact .pure _
    | var =>
      refine Preserves.requireAccess.bind fun access => ?_
      cases access with
      | global => exact .emit _
      | inFrame | parameter => exact .pure _
    | function name parameters result body =>
      intro state hlevel hkept
      simp only [lowerFunction, requireFrame]
      cases hf : program.layout.frames.get? id with
      | none => trivial
      | some frame =>
        have hbody : program.arena.Encloses (some id) body :=
          he.ofFunction hk rfl (by simp [NodeKind.children, Definition.children])
        have hrun := hlower body (some id) frame.level hbody (hp.laidOut.framed hf).level
          { state with level := frame.level } rfl hkept
        simp only [atLevel, Pass.runs_bind, Pass.runs_pure, Pass.runs_get, Pass.runs_modify,
          Pass.runs_leaving]
        refine hrun.mono fun value lowered hlowered => ?_
        simp only [record, Pass.runs_bind, Pass.runs_get]
        split
        · next trees hstore =>
          simp only [Pass.runs_set, Lowering.emit, Pass.runs_modify]
          refine ⟨hlevel, fun other code hg => ?_⟩
          rw [NodeTable.get?_store? hstore] at hg
          split at hg
          · cases hg
          · exact hlowered.2 other code hg
        · trivial

include he hl

/-- The code of an expression is found at its level. -/
theorem expressionCode_preserves {item : Expression}
    (hk : program.arena.kind? id = some (.expression item)) :
    Preserves program level (expressionCode program lower id item) := by
  have hbelow : ∀ below ∈ item.children, Preserves program level (lower below) :=
    fun below hm => hlower below outer level (he.ofExpression hk hm) hl
  cases item with
  | literal value atom =>
    cases atom with
    | logical => exact .pure _
    | string => exact Preserves.freshLabel.bind fun _ => (Preserves.emit _).bind fun _ => .pure _
    | integer =>
      simp only [expressionCode, lowerLiteral]
      split
      · exact .pure _
      · exact .broken
  | name word =>
    simp only [expressionCode, lowerName]
    split
    · exact .broken
    · refine Preserves.requireType.bind fun type => Preserves.requireAccess.bind fun access => ?_
      cases access with
      | global => exact .pure _
      | inFrame | parameter => exact Preserves.get.bind fun _ => .pure _
  | call callee arguments =>
    simp only [expressionCode, lowerCall]
    refine (Preserves.mapM hbelow).bind fun codes => ?_
    split
    · exact .pure _
    · split
      · exact .broken
      · exact Preserves.requireFrame.bind fun _ => Preserves.get.bind fun _ => .pure _
  | binary operator left right =>
    simp only [expressionCode]
    refine (hbelow left (by simp [Expression.children])).bind fun leftCode => ?_
    refine (hbelow right (by simp [Expression.children])).bind fun rightCode => ?_
    cases operator with
    | assign => exact .pure _
    | index =>
      refine Preserves.requireType.bind fun type => ?_
      split
      · exact .broken
      · split
        · exact fun _ _ _ => trivial
        · exact .pure _
    | or | and | eq | neq | lt | gt | leq | geq | add | sub | mul | div | mod => exact .pure _
  | unary operator operand =>
    exact (hbelow operand (by simp [Expression.children])).bind fun _ => .pure _
  | block expressions =>
    simp only [expressionCode, lowerBlock]
    split
    · exact .broken
    · next last hlast =>
      have hstatements : ∀ below ∈ expressions.dropLast, Preserves program level
          (do return Ir.Stmt.exp (← lower below)) := fun below hm =>
        (hbelow below (List.dropLast_subset expressions hm)).bind fun _ => .pure _
      refine (Preserves.mapM hstatements).bind fun _ => ?_
      exact (hbelow last (List.mem_of_getLast? hlast)).bind fun _ => .pure _
  | conditional test thenBranch elseBranch =>
    simp only [expressionCode, lowerConditional]
    refine (hbelow test (by simp [Expression.children])).bind fun _ => ?_
    refine (hbelow thenBranch (by simp [Expression.children])).bind fun _ => ?_
    refine Preserves.freshLabel.bind fun _ => Preserves.freshLabel.bind fun _ => ?_
    cases elseBranch with
    | none => exact .pure _
    | some branch =>
      refine (hbelow branch (by simp [Expression.children])).bind fun _ => ?_
      exact Preserves.freshLabel.bind fun _ => .pure _
  | whileLoop condition body =>
    simp only [expressionCode, lowerWhile]
    refine (hbelow condition (by simp [Expression.children])).bind fun _ => ?_
    refine (hbelow body (by simp [Expression.children])).bind fun _ => ?_
    exact Preserves.freshLabel.bind fun _ => Preserves.freshLabel.bind fun _ =>
      Preserves.freshLabel.bind fun _ => .pure _
  | forLoop counter low high step body =>
    simp only [expressionCode, lowerFor]
    refine (hbelow counter (by simp [Expression.children])).bind fun _ => ?_
    refine (hbelow low (by simp [Expression.children])).bind fun _ => ?_
    refine (hbelow high (by simp [Expression.children])).bind fun _ => ?_
    refine (hbelow step (by simp [Expression.children])).bind fun _ => ?_
    refine (hbelow body (by simp [Expression.children])).bind fun _ => ?_
    exact Preserves.freshLabel.bind fun _ => Preserves.freshLabel.bind fun _ =>
      Preserves.freshLabel.bind fun _ => .pure _
  | whereClause inner body =>
    have hinner : Preserves program level (lowerDefinitions program lower inner) := by
      unfold lowerDefinitions
      split
      · next members hm =>
        have hdefinitions := he.ofExpression hk
          (by simp [Expression.children] : inner ∈ (Expression.whereClause inner body).children)
        exact .forM fun member hmem =>
          lowerDefinition_preserves hp hlower (hdefinitions.ofOther hm rfl hmem)
      · exact .broken
    exact hinner.bind fun _ => hbelow body (by simp [Expression.children])

end Node

/-- Lowering an expression keeps the code of all expressions in it at their levels. -/
theorem lowerWithin_preserves (hp : Prepared program) : ∀ (fuel : Nat) (id : NodeId)
    (outer : Option NodeId) (level : Nat), program.arena.Encloses outer id →
      program.arena.Level outer level → Preserves program level (lowerWithin program fuel id)
  | 0, _, _, _, _, _ => .broken
  | fuel + 1, id, outer, level, he, hl => by
    intro state hlevel hkept
    have hemits : (lowerWithin program (fuel + 1) id).Runs Pass.Any state fun code after =>
        Emits program state (.expression id) [code] after := lowerWithin_emits (fuel + 1) id state
    have hstores : (lowerWithin program (fuel + 1) id).Runs Pass.Any state fun code after =>
        after.level = level ∧ ∃ trees, KeptRight program trees ∧
          trees.store? id (.expr code) = some after.trees := by
      simp only [lowerWithin, lowerExpression]
      cases hi : program.arena.expression? id with
      | none => trivial
      | some item =>
        have hcode := expressionCode_preserves hp (lowerWithin_preserves hp fuel) he hl
          (Arena.kind?_of_expression? hi)
        simp only [Pass.runs_bind]
        refine (hcode state hlevel hkept).mono fun code between hb => ?_
        simp only [record, Pass.runs_bind, Pass.runs_get]
        split
        · next trees hstore => exact ⟨hb.1, between.trees, hb.2, hstore⟩
        · trivial
    refine (hemits.and hstores).mono fun code after h => ?_
    obtain ⟨⟨chunks, hlowers, _, _⟩, hafter, trees, htrees, hstore⟩ := h
    refine ⟨hafter, fun other found hg => ?_⟩
    rw [NodeTable.get?_store? hstore] at hg
    split at hg
    · next hsame =>
      subst hsame
      cases hg
      exact ⟨outer, level, _, _, _, he, hl, hlevel ▸ hlowers⟩
    · exact htrees other found hg

/-- The code of every expression of a program is what the rules make of it at the level of the
function it stands in. -/
theorem ofProgram_kept {labels : LabelSupply} {trees : NodeTable Ir.Tree} {chunks : Array Chunk}
    (hp : Prepared program) (h : ofProgram program labels = .ok (trees, chunks)) :
    KeptRight program trees := by
  obtain ⟨root, hroot, _, hs⟩ := hp.tree
  obtain ⟨kind, hk, _, _, _⟩ := Arena.subtree_iff.mp hs
  simp only [ofProgram, hroot, lowerDefinitions, hk] at h
  cases kind with
  | definition | expression | type => cases h
  | definitions members =>
    have hmembers : ∀ member ∈ members, Preserves program 0
        (lowerDefinition program (lower program) member) := fun member hm =>
      lowerDefinition_preserves hp (lowerWithin_preserves hp program.arena.depthBound)
        ((Arena.Encloses.root hroot).ofOther hk rfl hm)
    have hrun := Preserves.forM hmembers (.initial labels) rfl fun id code hg => by
      simp [State.initial] at hg
    obtain ⟨_, after, hafter, he⟩ := hrun.of_map_ok h
    cases he
    exact hafter.2

/-- Lists of expressions have as many codes. -/
theorem Lowers.length_eq {ids : List NodeId} {codes : List Ir.Expr} {chunks : List Chunk}
    {labels rest : LabelSupply}
    (h : Lowers program level labels (.expressions ids) codes chunks rest) :
    codes.length = ids.length := by
  induction ids generalizing labels codes chunks with
  | nil =>
    cases h
    rfl
  | cons id ids ih =>
    cases h with
    | expressions _ hr => simp [ih hr]

/-- A call of a function saves the frame pointer where the frame of the callee says, and hands over
the link that the levels of caller and callee ask for and the code of each argument. -/
theorem Lowers.userCall {callee : String} {arguments : List NodeId} {codes : List Ir.Expr}
    {chunks : List Chunk} {labels rest : LabelSupply}
    (h : Lowers program level labels (.expression id) codes chunks rest)
    (hk : program.arena.kind? id = some (.expression (.call callee arguments)))
    (hr : Builtin.isRoutine callee = false) :
    ∃ function frame argumentCodes, program.bindings.get? id = some function ∧
      program.layout.frames.get? function = some frame ∧
        argumentCodes.length = arguments.length ∧
          codes = [.eseq (saveFramePointer frame)
            (.call frame.label (linkToCallee level frame.level :: argumentCodes))] := by
  cases h with
  | node hk' hchildren hcombines =>
    cases hk.symm.trans hk'
    cases hcombines with
    | routine hr' => cases hr.symm.trans hr'
    | call _ hb hf => exact ⟨_, _, _, hb, hf, hchildren.length_eq, rfl⟩
  | choice hk' => cases hk.symm.trans hk'
  | whereClause hk' => cases hk.symm.trans hk'

/-- A name has the code of the value kept for its definition. -/
theorem Lowers.name {word : String} {codes : List Ir.Expr} {chunks : List Chunk}
    {labels rest : LabelSupply} (h : Lowers program level labels (.expression id) codes chunks rest)
    (hk : program.arena.kind? id = some (.expression (.name word))) :
    ∃ definition type access, program.bindings.get? id = some definition ∧
      program.types.get? definition = some type ∧
        program.layout.accesses.get? definition = some access ∧
          codes = [valueAt level type access] := by
  cases h with
  | node hk' hchildren hcombines =>
    cases hk.symm.trans hk'
    cases hcombines with
    | name hb ht ha => exact ⟨_, _, _, hb, ht, ha, rfl⟩
  | choice hk' => cases hk.symm.trans hk'
  | whereClause hk' => cases hk.symm.trans hk'

end Lowering

namespace Compilation

variable {file source : String} {compilation : Compilation}

/-- The code of every expression of a compiled source is what the rules make of it at the level of
the function it stands in. -/
theorem ofSource_kept (h : ofSource file source = .ok compilation) :
    Lowering.KeptRight compilation.program compilation.trees := by
  obtain ⟨tokens, arena, _, hparse, ha⟩ := ofSource_eq_ok h
  obtain ⟨bindings, types, layout, labels, hb, ht, hl, hp, he⟩ := ofArena_eq_ok ha
  have hprepared := prepared (parse_isTree hparse) hb ht hl
  rw [← he] at hprepared hp
  exact Lowering.ofProgram_kept hprepared hp

/-- Every expression of a compiled source has its code kept, which is what the rules make of it at
the level of the function it stands in. -/
theorem exists_kept (h : ofSource file source = .ok compilation) {id : NodeId} {item : Expression}
    (hk : compilation.program.arena.kind? id = some (.expression item)) :
    ∃ code outer level labels chunks rest, compilation.trees.get? id = some (.expr code) ∧
      compilation.program.arena.Encloses outer id ∧ compilation.program.arena.Level outer level ∧
        Lowering.Lowers compilation.program level labels (.expression id) [code] chunks rest := by
  obtain ⟨tokens, arena, _, hparse, ha⟩ := ofSource_eq_ok h
  obtain ⟨bindings, types, layout, labels, hb, ht, hl, hp, he⟩ := ofArena_eq_ok ha
  have hprepared := prepared (parse_isTree hparse) hb ht hl
  rw [← he] at hprepared hp
  obtain ⟨trees, chunks, hok, hright⟩ := Lowering.ofProgram_lowered labels hprepared
  cases hok.symm.trans hp
  have htree := hright id
  simp only [Lowering.TreeRight, hk] at htree
  obtain ⟨code, hcode⟩ := htree
  obtain ⟨outer, level, hkept⟩ := ofSource_kept h id code hcode
  obtain ⟨labels, chunks, rest, hkept⟩ := hkept
  exact ⟨code, outer, level, labels, chunks, rest, hcode, hkept⟩

/-- The code kept for a call of a function. -/
theorem exists_userCall (h : ofSource file source = .ok compilation) {id : NodeId}
    {callee : String} {arguments : List NodeId}
    (hk : compilation.program.arena.kind? id = some (.expression (.call callee arguments)))
    (hr : Builtin.isRoutine callee = false) :
    ∃ outer level function frame codes, compilation.program.arena.Encloses outer id ∧
      compilation.program.arena.Level outer level ∧
      compilation.program.bindings.get? id = some function ∧
      compilation.program.layout.frames.get? function = some frame ∧
      compilation.trees.get? id = some (.expr (.eseq (Lowering.saveFramePointer frame)
        (.call frame.label (Lowering.linkToCallee level frame.level :: codes)))) := by
  obtain ⟨code, outer, level, labels, chunks, rest, hcode, he, hl, hlowers⟩ := exists_kept h hk
  obtain ⟨function, frame, codes, hb, hf, _, hcall⟩ := hlowers.userCall hk hr
  cases hcall
  exact ⟨outer, level, function, frame, codes, he, hl, hb, hf, hcode⟩

end Compilation

end Pins
