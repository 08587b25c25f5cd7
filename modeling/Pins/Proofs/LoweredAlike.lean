import Pins.Lowering
import Pins.Proofs.Alike
import Pins.Proofs.Relabelled

/-!
# Lowering alike arenas

A run of lowering over one of two alike arenas draws labels, keeps code and emits chunks as the run
over the other one does: what the second one makes is what the first one makes, with other numbers
for labels (`lowerWithin_follows`). The frames and accesses that the two runs go by are to differ in
the same way (`Matched`).
-/

namespace Pins.Lowering

open Ir (Expr Stmt Tree)

/-- How two runs of lowering are compared. -/
structure Pairing where
  /-- The numbers that the labels of the first run have in the second one. -/
  renumbering : Renumbering
  /-- The nodes that are visited. -/
  known : NodeId → Prop
  /-- The state from which the first run is compared. -/
  first : State
  /-- The state from which the second run is compared. -/
  first' : State

namespace Pairing

variable (p : Pairing)

/-- Two pieces of code are the same but for the numbers of labels. -/
def Trees (_ : NodeId) (tree tree' : Tree) : Prop :=
  tree' = tree.relabel p.renumbering.renumber

/-- The second state is what the first one is, with other numbers for labels. -/
structure Related (state state' : State) : Prop where
  /-- As many labels were drawn. -/
  labels : Supplies p.renumbering state.labels state'.labels
  /-- Both are in a function at the same level. -/
  level : state'.level = state.level
  /-- The code that was kept is the same. -/
  trees : NodeTable.Mirrors p.known p.Trees p.first.trees p.first'.trees state.trees state'.trees
  /-- The chunks that were added are the same. -/
  chunks : ∃ added, state.chunks.toList = p.first.chunks.toList ++ added ∧
    state'.chunks.toList =
      p.first'.chunks.toList ++ added.map (Chunk.relabel p.renumbering.renumber)

/-- What two runs do side by side. -/
abbrev Same {α β : Type} (c : Pass.Comparison State) (see : α → β) (step : Lower α)
    (step' : Lower β) : Prop :=
  Pass.Follows c p.Related p.Related see step step'

/-- Lowering goes by the same findings of earlier passes, but for names and the numbers of
labels. -/
structure Matched (c : Pass.Comparison State) (names : NodeId → String)
    (program program' : Program) : Prop where
  /-- The programs are the same up to names. -/
  alike : program.arena.Alike c names program'.arena p.known
  /-- References are bound to the same definitions. -/
  bindings : program'.bindings = program.bindings
  /-- Nodes have the same types. -/
  types : program'.types = program.types
  /-- Functions have the same frames. -/
  frames : ∀ id, program'.layout.frames.get? id =
    (program.layout.frames.get? id).map (Frame.relabel p.renumbering.renumber)
  /-- What a reference is bound to is known too, or all diagnostics are excused. -/
  reach : ∀ {id target}, p.known id → program.bindings.get? id = some target →
    p.known target ∨ ∀ diagnostic, c.excuses diagnostic
  /-- What a name is bound to is kept at the same place. -/
  named : ∀ {id word target}, p.known id →
    program.arena.kind? id = some (.expression (.name word)) →
    program.bindings.get? id = some target → program'.layout.accesses.get? target =
      (program.layout.accesses.get? target).map (Access.relabel p.renumbering.renumber)
  /-- Variables are kept at the same places. -/
  stored : ∀ {id word written}, p.known id →
    program.arena.kind? id = some (.definition (.var word written)) →
    program'.layout.accesses.get? id =
      (program.layout.accesses.get? id).map (Access.relabel p.renumbering.renumber)

/-- Nothing is lowered yet, and labels keep their numbers. -/
abbrev same (known : NodeId → Prop) (labels : LabelSupply) (limit : Nat) : Pairing :=
  ⟨.same limit, known, .initial labels, .initial labels⟩

theorem related_initial (known : NodeId → Prop) (labels : LabelSupply) (limit : Nat) :
    (same known labels limit).Related (.initial labels) (.initial labels) :=
  ⟨.same labels limit, rfl, .empty, [], (List.append_nil _).symm, (List.append_nil _).symm⟩

namespace Related

variable {known : NodeId → Prop} {labels : LabelSupply} {limit : Nat} {state state' : State}

/-- If labels keep their numbers, the code is the same. -/
theorem trees_eq (h : (same known labels limit).Related state state') :
    state'.trees = state.trees :=
  h.trees.eq_of_empty fun _ tree _ he => he.trans (Tree.relabel_id tree)

/-- If labels keep their numbers, the chunks are the same. -/
theorem chunks_eq (h : (same known labels limit).Related state state') :
    state'.chunks = state.chunks := by
  obtain ⟨added, ha, ha'⟩ := h.chunks
  rw [← Array.toList_inj, ha, ha', funext Chunk.relabel_id, List.map_id']

end Related

end Pairing

variable {c : Pass.Comparison State} {names : NodeId → String} {program program' : Program}
  {p : Pairing} {id : NodeId} {lower lower' : NodeId → Lower Expr} {renumber : Nat → Nat}

@[simp] theorem relabel_slotAddress (level target : Nat) (offset : Int) :
    (slotAddress level target offset).relabel renumber = slotAddress level target offset := by
  simp [slotAddress, Expr.relabel]

@[simp] theorem relabel_linkToCallee (caller callee : Nat) :
    (linkToCallee caller callee).relabel renumber = linkToCallee caller callee := by
  unfold linkToCallee
  split
  · rfl
  · split <;> simp

@[simp] theorem relabel_saveFramePointer (frame : Frame) :
    (saveFramePointer frame).relabel renumber = saveFramePointer (frame.relabel renumber) := by
  simp [saveFramePointer, Stmt.relabel, Expr.relabel, Frame.relabel, Frame.oldFramePointerOffset]

@[simp] theorem relabel_indexed (element : Ty) (size : Nat) (array index : Expr) :
    (indexed element size array index).relabel renumber =
      indexed element size (array.relabel renumber) (index.relabel renumber) := by
  simp only [indexed]
  split <;> simp [Expr.relabel]

@[simp] theorem relabel_unaryCode (operand : Expr) (operator : UnaryOperator) :
    (unaryCode operand operator).relabel renumber =
      unaryCode (operand.relabel renumber) operator := by
  cases operator <;> simp [unaryCode, Expr.relabel]

@[simp] theorem relabel_zeroAfter (statements : List Stmt) :
    (zeroAfter statements).relabel renumber =
      zeroAfter (statements.map (Stmt.relabel renumber)) := by
  simp [zeroAfter, Expr.relabel, Stmt.relabel]

/-- Code that was put together is that of the first run with other numbers. -/
theorem pure_follows {code code' : Expr} (he : code' = code.relabel p.renumbering.renumber) :
    p.Same c (Expr.relabel p.renumbering.renumber) (pure code) (pure code') :=
  he ▸ .pure _ code

section Steps

variable (h : p.Matched c names program program')
  (hw : ∀ state, c.within state ↔ state.labels.next ≤ p.renumbering.limit)

include h

theorem fail_follows {α β : Type} {see : α → β} {fault : Fault} (hid : p.known id) :
    p.Same c see (fail program id fault) (fail program' id fault) :=
  .throw (h.alike.fault hid fun _ => rfl)

theorem broken_follows {α β : Type} {see : α → β} {message message' : String} (hid : p.known id)
    (he : (∀ other, p.known other → program'.arena.kind? other = program.arena.kind? other) →
      message' = message) :
    p.Same c see (broken program id message) (broken program' id message') :=
  .throw (h.alike.fault hid fun hk => by rw [he hk])

/-- The type of a node is the same. -/
theorem requireType_follows (hid : p.known id ∨ ∀ diagnostic, c.excuses diagnostic) :
    p.Same c (fun type => type) (requireType program id) (requireType program' id) := by
  unfold requireType
  rw [h.types]
  cases program.types.get? id with
  | some type => exact .pure (fun type => type) type
  | none =>
    rcases hid with hid | hx
    · exact broken_follows h hid fun _ => rfl
    · exact .excused (hx _)

/-- The access of a definition has another number for its label. -/
theorem requireAccess_follows (hid : p.known id ∨ ∀ diagnostic, c.excuses diagnostic)
    (ha : program'.layout.accesses.get? id =
      (program.layout.accesses.get? id).map (Access.relabel p.renumbering.renumber)) :
    p.Same c (Access.relabel p.renumbering.renumber) (requireAccess program id)
      (requireAccess program' id) := by
  unfold requireAccess
  rw [ha]
  cases program.layout.accesses.get? id with
  | some access => exact .pure _ access
  | none =>
    rcases hid with hid | hx
    · exact broken_follows h hid fun _ => rfl
    · exact .excused (hx _)

/-- The frame of a function has another number for its label. -/
theorem requireFrame_follows (hid : p.known id ∨ ∀ diagnostic, c.excuses diagnostic) :
    p.Same c (Frame.relabel p.renumbering.renumber) (requireFrame program id)
      (requireFrame program' id) := by
  unfold requireFrame
  rw [h.frames]
  cases program.layout.frames.get? id with
  | some frame => exact .pure _ frame
  | none =>
    rcases hid with hid | hx
    · exact broken_follows h hid fun _ => rfl
    · exact .excused (hx _)

include hw

omit h in
/-- Labels are drawn at the same pace. -/
theorem freshLabel_follows :
    p.Same c (Label.relabel p.renumbering.renumber) freshLabel freshLabel := by
  refine ⟨fun state hstate => ?_, fun state state' hs hstate => ?_⟩
  · have hdrawn : c.within { state with labels := state.labels.rest } := hstate
    rw [hw] at hdrawn ⊢
    exact Nat.le_of_succ_le hdrawn
  · have hdrawn : c.within { state with labels := state.labels.rest } := hstate
    rw [hw] at hdrawn
    refine ⟨{ state' with labels := state'.labels.rest }, ?_, hs.labels.rest, hs.level, hs.trees,
      hs.chunks⟩
    rw [← hs.labels.label hdrawn]
    rfl

theorem record_follows {tree tree' : Tree} (hid : p.known id)
    (ht : tree' = tree.relabel p.renumbering.renumber) :
    p.Same c (fun value => value) (record program id tree) (record program' id tree') := by
  refine ⟨fun state hstate => ?_, fun state state' hs hstate => ?_⟩
  · simp only [record, Pass.run_get_bind] at hstate
    cases hstored : state.trees.store? id tree with
    | none =>
      rw [hstored] at hstate
      exact hstate
    | some trees =>
      rw [hstored, hw] at hstate
      exact (hw state).mpr hstate
  · simp only [record, Pass.run_get_bind]
    cases hstored : state.trees.store? id tree with
    | none =>
      rw [hs.trees.store?_eq_none hid tree' hstored]
      exact (h.alike.fault hid fun _ => rfl).imp_right fun hb => ⟨_, _, rfl, hb⟩
    | some trees =>
      obtain ⟨trees', hstored', hmirrors⟩ := hs.trees.store? hid ht hstored
      rw [hstored']
      exact ⟨_, rfl, hs.labels, hs.level, hmirrors, hs.chunks⟩

omit h in
theorem emit_follows {chunk chunk' : Chunk}
    (he : chunk' = chunk.relabel p.renumbering.renumber) :
    p.Same c (fun value => value) (emit chunk) (emit chunk') := by
  refine .modify (fun state hstate => ?_) fun state state' hs _ => ?_
  · rw [hw] at hstate ⊢
    exact hstate
  · obtain ⟨added, ha, ha'⟩ := hs.chunks
    refine ⟨hs.labels, hs.level, hs.trees, added ++ [chunk], ?_, ?_⟩
    · simp only [Array.toList_push, ha, List.append_assoc]
    · simp only [Array.toList_push, ha', he, List.append_assoc, List.map_append, List.map_cons,
        List.map_nil]

theorem lowerLiteral_follows {value : String} {atom : Atom} (hid : p.known id) :
    p.Same c (Expr.relabel p.renumbering.renumber) (lowerLiteral program id value atom)
      (lowerLiteral program' id value atom) := by
  cases atom with
  | integer =>
    simp only [lowerLiteral]
    split
    · exact pure_follows (by simp [Expr.relabel])
    · exact broken_follows h hid fun _ => rfl
  | logical => exact pure_follows (by simp [Expr.relabel])
  | string =>
    refine (freshLabel_follows hw).bind fun label => ?_
    refine (emit_follows hw rfl).bind fun _ => ?_
    exact pure_follows (by simp [Expr.relabel])

omit h hw in
/-- What is read off the level of the function around is the same in both runs. -/
theorem atCurrentLevel_follows {α β : Type} {see : α → β} {next : Nat → Lower α}
    {next' : Nat → Lower β} (hn : ∀ level, p.Same c see (next level) (next' level)) :
    p.Same c see (get >>= fun state => next state.level) (get >>= fun state => next' state.level) :=
  .read (fun level => level) State.level State.level (fun _ _ hs => hs.level) hn

omit hw in
theorem lowerName_follows {word : String} (hid : p.known id)
    (hk : program.arena.kind? id = some (.expression (.name word))) :
    p.Same c (Expr.relabel p.renumbering.renumber) (lowerName program id)
      (lowerName program' id) := by
  unfold lowerName
  rw [h.bindings]
  cases hb : program.bindings.get? id with
  | none => exact broken_follows h hid fun _ => rfl
  | some target =>
    have htarget := h.reach hid hb
    refine (requireType_follows h htarget).bind fun type => ?_
    refine (requireAccess_follows h htarget (h.named hid hk hb)).bind fun access => ?_
    cases access with
    | global size label =>
      refine pure_follows ?_
      split <;> simp [Expr.relabel]
    | inFrame size offset level =>
      have hnext : ∀ current, p.Same c (Expr.relabel p.renumbering.renumber)
          (pure (if type.isArray then slotAddress current level offset
            else .memory (slotAddress current level offset)))
          (pure (if type.isArray then slotAddress current level offset
            else .memory (slotAddress current level offset))) := fun current =>
        pure_follows (by split <;> simp [Expr.relabel])
      exact atCurrentLevel_follows hnext
    | parameter size offset level =>
      have hnext : ∀ current, p.Same c (Expr.relabel p.renumbering.renumber)
          (pure (.memory (slotAddress current level offset)))
          (pure (.memory (slotAddress current level offset))) := fun current =>
        pure_follows (by simp [Expr.relabel])
      exact atCurrentLevel_follows hnext

omit hw in
theorem lowerBinary_follows {left : NodeId} {operator : BinaryOperator} {leftCode rightCode : Expr}
    (hid : p.known id) (hl : p.known left) :
    p.Same c (Expr.relabel p.renumbering.renumber)
      (lowerBinary program id left operator leftCode rightCode)
      (lowerBinary program' id left operator (leftCode.relabel p.renumbering.renumber)
        (rightCode.relabel p.renumbering.renumber)) := by
  unfold lowerBinary
  cases operator with
  | assign => exact pure_follows (by simp [Expr.relabel, Stmt.relabel])
  | index =>
    refine (requireType_follows h (.inl hl)).bind fun type => ?_
    cases type.element? with
    | none => exact broken_follows h hid fun _ => rfl
    | some element =>
      dsimp only
      cases element.size? with
      | none => exact fail_follows h hl
      | some size => exact pure_follows (relabel_indexed ..).symm
  | or | and | eq | neq | lt | gt | leq | geq | add | sub | mul | div | mod =>
    exact pure_follows (by simp [Expr.relabel])

omit hw in
theorem lowerBlock_follows {expressions : List NodeId} (hid : p.known id)
    (hv : ∀ below ∈ expressions,
      p.Same c (Expr.relabel p.renumbering.renumber) (lower below) (lower' below)) :
    p.Same c (Expr.relabel p.renumbering.renumber) (lowerBlock program lower id expressions)
      (lowerBlock program' lower' id expressions) := by
  unfold lowerBlock
  cases hlast : expressions.getLast? with
  | none => exact broken_follows h hid fun _ => rfl
  | some last =>
    have hstatements : ∀ below ∈ expressions.dropLast,
        p.Same c (Stmt.relabel p.renumbering.renumber) (do return Stmt.exp (← lower below))
          (do return Stmt.exp (← lower' below)) :=
      fun below hm => (hv below (List.dropLast_subset expressions hm)).bind fun code => by
        have hpure : p.Same c (Stmt.relabel p.renumbering.renumber) (pure (.exp code))
            (pure (Stmt.relabel p.renumbering.renumber (.exp code))) := .pure _ _
        simpa only [Stmt.relabel] using hpure
    refine (Pass.Follows.mapM hstatements).bind fun statements => ?_
    refine (hv last (List.mem_of_getLast? hlast)).bind fun value => ?_
    exact pure_follows (by simp [Expr.relabel, Stmt.relabel])

omit hw in
/-- A call of a function goes to the function with the same frame, and a call of a routine keeps the
name. -/
theorem lowerCall_follows {callee name : String} {arguments : List NodeId} (hid : p.known id)
    (hv : ∀ below ∈ arguments,
      p.Same c (Expr.relabel p.renumbering.renumber) (lower below) (lower' below))
    (hkeeps : (NodeKind.expression (.call callee arguments)).Keeps name)
    (he : (∀ other, p.known other → program'.arena.kind? other = program.arena.kind? other) →
      name = callee) :
    p.Same c (Expr.relabel p.renumbering.renumber) (lowerCall program lower id callee arguments)
      (lowerCall program' lower' id name arguments) := by
  have hroutine : Builtin.isRoutine name = Builtin.isRoutine callee := by
    rcases hkeeps with rfl | ⟨hcallee, hname⟩
    · rfl
    · rw [hcallee, hname]
  unfold lowerCall
  refine (Pass.Follows.mapM hv).bind fun codes => ?_
  rw [hroutine, h.bindings]
  split
  · next hcallee =>
    obtain rfl : name = callee := hkeeps.resolve_right fun hnone => by
      rw [hnone.1] at hcallee
      cases hcallee
    exact pure_follows (by simp [Expr.relabel, Label.relabel])
  · cases hb : program.bindings.get? id with
    | none => exact broken_follows h hid fun hk => by rw [he hk]
    | some function =>
      refine (requireFrame_follows h (h.reach hid hb)).bind fun frame => ?_
      have hnext : ∀ level, p.Same c (Expr.relabel p.renumbering.renumber)
          (pure (.eseq (saveFramePointer frame)
            (.call frame.label (linkToCallee level frame.level :: codes))))
          (pure (.eseq (saveFramePointer (frame.relabel p.renumbering.renumber))
            (.call (frame.relabel p.renumbering.renumber).label
              (linkToCallee level (frame.relabel p.renumbering.renumber).level ::
                codes.map (Expr.relabel p.renumbering.renumber))))) := fun level =>
        pure_follows (by simp [Expr.relabel, Frame.relabel])
      exact atCurrentLevel_follows hnext

omit h in
theorem lowerConditional_follows {condition thenBranch : NodeId} {elseBranch : Option NodeId}
    (hv : ∀ below ∈ (Expression.conditional condition thenBranch elseBranch).children,
      p.Same c (Expr.relabel p.renumbering.renumber) (lower below) (lower' below)) :
    p.Same c (Expr.relabel p.renumbering.renumber)
      (lowerConditional lower condition thenBranch elseBranch)
      (lowerConditional lower' condition thenBranch elseBranch) := by
  refine (hv condition (by simp [Expression.children])).bind fun test => ?_
  refine (hv thenBranch (by simp [Expression.children])).bind fun thenCode => ?_
  refine (freshLabel_follows hw).bind fun thenLabel => ?_
  refine (freshLabel_follows hw).bind fun endLabel => ?_
  cases elseBranch with
  | none => exact pure_follows (by simp [Stmt.relabel])
  | some branch =>
    refine (hv branch (by simp [Expression.children])).bind fun elseCode => ?_
    refine (freshLabel_follows hw).bind fun elseLabel => ?_
    exact pure_follows (by simp [Stmt.relabel])

omit h in
theorem lowerWhile_follows {condition body : NodeId}
    (hv : ∀ below ∈ (Expression.whileLoop condition body).children,
      p.Same c (Expr.relabel p.renumbering.renumber) (lower below) (lower' below)) :
    p.Same c (Expr.relabel p.renumbering.renumber) (lowerWhile lower condition body)
      (lowerWhile lower' condition body) := by
  refine (hv condition (by simp [Expression.children])).bind fun test => ?_
  refine (hv body (by simp [Expression.children])).bind fun code => ?_
  refine (freshLabel_follows hw).bind fun startLabel => ?_
  refine (freshLabel_follows hw).bind fun bodyLabel => ?_
  refine (freshLabel_follows hw).bind fun endLabel => ?_
  exact pure_follows (by simp [Stmt.relabel])

omit h in
theorem lowerFor_follows {counter low high step body : NodeId}
    (hv : ∀ below ∈ (Expression.forLoop counter low high step body).children,
      p.Same c (Expr.relabel p.renumbering.renumber) (lower below) (lower' below)) :
    p.Same c (Expr.relabel p.renumbering.renumber) (lowerFor lower counter low high step body)
      (lowerFor lower' counter low high step body) := by
  refine (hv counter (by simp [Expression.children])).bind fun counterCode => ?_
  refine (hv low (by simp [Expression.children])).bind fun lowCode => ?_
  refine (hv high (by simp [Expression.children])).bind fun highCode => ?_
  refine (hv step (by simp [Expression.children])).bind fun stepCode => ?_
  refine (hv body (by simp [Expression.children])).bind fun bodyCode => ?_
  refine (freshLabel_follows hw).bind fun startLabel => ?_
  refine (freshLabel_follows hw).bind fun bodyLabel => ?_
  refine (freshLabel_follows hw).bind fun endLabel => ?_
  exact pure_follows (by simp [Expr.relabel, Stmt.relabel])

omit h in
theorem atLevel_follows {α β : Type} {see : α → β} {step : Lower α} {step' : Lower β}
    (level : Nat) (hs : p.Same c see step step') :
    p.Same c see (atLevel level step) (atLevel level step') := by
  have hback : ∀ {state after : State}, after.labels = state.labels → c.within after →
      c.within state := fun hl => by
    rw [hw, hw, hl]
    exact fun hle => hle
  have hnext : ∀ outer, p.Same c see
      (do modify fun state => { state with level }
          Pass.leaving (fun state => { state with level := outer }) step)
      (do modify fun state => { state with level }
          Pass.leaving (fun state => { state with level := outer }) step') := by
    intro outer
    refine Pass.Follows.bind (.modify (fun _ => hback rfl) fun state state' hr _ => ?_) fun _ =>
      .leaving (fun _ => hback rfl) (fun state state' hr => ?_) hs
    · exact ⟨hr.labels, rfl, hr.trees, hr.chunks⟩
    · exact ⟨hr.labels, rfl, hr.trees, hr.chunks⟩
  exact atCurrentLevel_follows hnext

theorem lowerFunction_follows {body : NodeId} (hid : p.known id)
    (hv : p.Same c (Expr.relabel p.renumbering.renumber) (lower body) (lower' body)) :
    p.Same c (fun value => value) (lowerFunction program lower id body)
      (lowerFunction program' lower' id body) := by
  refine (requireFrame_follows h (.inl hid)).bind fun frame => ?_
  refine (atLevel_follows hw frame.level hv).bind fun value => ?_
  have hcode : Stmt.move (.memory Ir.framePointer) (value.relabel p.renumbering.renumber) =
      (Stmt.move (.memory Ir.framePointer) value).relabel p.renumbering.renumber := by
    simp [Stmt.relabel, Expr.relabel]
  rw [hcode]
  exact (record_follows h hw hid rfl).bind fun _ => emit_follows hw rfl

variable (hv : ∀ id, p.known id →
  p.Same c (Expr.relabel p.renumbering.renumber) (lower id) (lower' id))

include hv

theorem lowerDefinition_follows (hid : p.known id) :
    p.Same c (fun value => value) (lowerDefinition program lower id)
      (lowerDefinition program' lower' id) := by
  obtain ⟨kind, hk, hk', -⟩ := h.alike.kind hid
  have hm := h.alike.child hid hk
  unfold lowerDefinition
  simp only [Arena.definition?, hk, hk']
  cases kind with
  | definitions | expression | type => exact broken_follows h hid fun _ => rfl
  | definition item =>
    cases item with
    | function word parameters result body =>
      exact lowerFunction_follows h hw hid
        (hv body (hm body (by simp [NodeKind.children, Definition.children])))
    | var word written =>
      refine (requireAccess_follows h (.inl hid) (h.stored hid hk)).bind fun access => ?_
      cases access with
      | global => exact emit_follows hw rfl
      | inFrame | parameter => exact .pure (fun value => value) _
    | type | parameter => exact .pure (fun value => value) _

theorem lowerDefinitions_follows (hid : p.known id) :
    p.Same c (fun value => value) (lowerDefinitions program lower id)
      (lowerDefinitions program' lower' id) := by
  obtain ⟨kind, hk, hk', -⟩ := h.alike.kind hid
  have hm := h.alike.child hid hk
  simp only [lowerDefinitions, hk, hk']
  cases kind with
  | definition | expression | type => exact broken_follows h hid fun _ => rfl
  | definitions members =>
    exact .forM fun member hmember => lowerDefinition_follows h hw hv (hm member hmember)

theorem expressionCode_follows {item : Expression} (hid : p.known id)
    (hk : program.arena.kind? id = some (.expression item))
    (hk' : program'.arena.kind? id = some (NodeKind.named (names id) (.expression item)))
    (hkeeps : (NodeKind.expression item).Keeps (names id)) :
    p.Same c (Expr.relabel p.renumbering.renumber) (expressionCode program lower id item)
      (expressionCode program' lower' id (item.named (names id))) := by
  have hknown := h.alike.child hid hk
  have hm : ∀ below ∈ item.children,
      p.Same c (Expr.relabel p.renumbering.renumber) (lower below) (lower' below) :=
    fun below hbelow => hv below (hknown below hbelow)
  cases item with
  | literal => exact lowerLiteral_follows h hw hid
  | name => exact lowerName_follows h hid hk
  | call callee arguments =>
    refine lowerCall_follows h hid hm hkeeps fun he => ?_
    exact (Expression.call.inj (NodeKind.expression.inj
      (Arena.named_eq_self hid hk hk' he))).1
  | binary operator left right =>
    refine (hm left (by simp [Expression.children])).bind fun leftCode => ?_
    refine (hm right (by simp [Expression.children])).bind fun rightCode => ?_
    exact lowerBinary_follows h hid
      (hknown left (by simp [NodeKind.children, Expression.children]))
  | unary operator operand =>
    refine (hm operand (by simp [Expression.children])).bind fun code => ?_
    exact pure_follows (relabel_unaryCode ..).symm
  | block expressions => exact lowerBlock_follows h hid hm
  | conditional => exact lowerConditional_follows hw hm
  | whileLoop => exact lowerWhile_follows hw hm
  | forLoop => exact lowerFor_follows hw hm
  | whereClause inner body =>
    have hinner := hknown inner (by simp [NodeKind.children, Expression.children])
    exact (lowerDefinitions_follows h hw hv hinner).bind fun _ =>
      hm body (by simp [Expression.children])

end Steps

/-- Expressions of alike programs are lowered to the same code. -/
theorem lowerWithin_follows (h : p.Matched c names program program')
    (hw : ∀ state, c.within state ↔ state.labels.next ≤ p.renumbering.limit) (fuel : Nat)
    (hid : p.known id) :
    p.Same c (Expr.relabel p.renumbering.renumber) (lowerWithin program fuel id)
      (lowerWithin program' fuel id) := by
  induction fuel generalizing id with
  | zero => exact broken_follows h hid fun _ => rfl
  | succ fuel ih =>
    obtain ⟨kind, hk, hk', hkeeps⟩ := h.alike.kind hid
    simp only [lowerWithin, lowerExpression, Arena.expression?, hk, hk']
    cases kind with
    | definitions | definition | type => exact broken_follows h hid fun _ => rfl
    | expression item =>
      refine (expressionCode_follows h hw (fun _ hbelow => ih hbelow) hid hk hk' hkeeps).bind
        fun code => ?_
      refine (record_follows h hw hid ?_).bind fun _ => .pure _ code
      rw [Tree.relabel]

end Pins.Lowering
