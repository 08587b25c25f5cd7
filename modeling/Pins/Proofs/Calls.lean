import Pins.Proofs.Compiled
import Pins.Proofs.Effects

/-!
# Calls are lowered once

The code of a function calls what the calls in its body mean, each one once, and besides what the
code of an assignment repeats: the calls in its target (`Lowers.callsAgree`). So the numbers of
calls agree exactly for the functions that call nothing in the target of an assignment.
-/

namespace Pins

namespace Arena

variable {arena : Arena} {id : NodeId} {kind : NodeKind}

/-- The calls that are computed with an expression. -/
def calls (arena : Arena) (id : NodeId) : List NodeId := (arena.own id).filter arena.isCall

/-- No target of an assignment that is computed with an expression calls anything. -/
def CallsOnce (arena : Arena) (id : NodeId) : Prop :=
  ∀ part ∈ arena.own id, ∀ target, arena.Assigns part target → arena.calls target = []

/-- The calls in an expression are itself, if it is one, and those in its operands. -/
theorem IsTree.calls_eq (h : arena.IsTree) (hk : arena.kind? id = some kind) :
    arena.calls id = [id].filter arena.isCall ++ (arena.operands id).flatMap arena.calls := by
  rw [calls, h.own_eq hk, ← List.singleton_append, List.filter_append, List.filter_flatMap]
  rfl

/-- Calls are lowered once in an expression if they are in its operands and, in case it is an
assignment, its target calls nothing. -/
theorem IsTree.callsOnce_iff (h : arena.IsTree) (hk : arena.kind? id = some kind) :
    arena.CallsOnce id ↔ (∀ target, arena.Assigns id target → arena.calls target = []) ∧
      ∀ below ∈ arena.operands id, arena.CallsOnce below :=
  h.forall_own_iff hk

end Arena

namespace Lowering

open Ir (Effect Expr Tree)

variable {program : Program} {level : Nat} {id : NodeId} {task : Task}
  {labels rest : LabelSupply} {codes : List Expr} {chunks : List Chunk}

/-- The label that a call means: that of a built-in routine, or of the function it is bound to. -/
def Program.callee? (program : Program) (id : NodeId) : Option Label :=
  match program.arena.expression? id with
  | some (.call callee _) =>
    if Builtin.isRoutine callee then some (.named callee)
    else (program.bindings.get? id).bind fun function =>
      (program.layout.frames.get? function).map Frame.label
  | _ => none

/-- The labels that codes call. -/
def calledLabels (codes : List Expr) : List (Option Label) :=
  (codes.flatMap (Expr.collect Tree.callee?)).map some

/-- What codes call is found in their effects. -/
theorem calledLabels_eq (codes : List Expr) :
    calledLabels codes = ((codes.flatMap Expr.effects).filterMap Effect.callee?).map some := by
  rw [calledLabels, Ir.flatMap_collect_eq Tree.callee?_eq_bind]

/-- Exactly calls call. -/
theorem callee?_marks : Marks program Effect.callee? Expression.isCall where
  node h := by
    cases h with
    | routine hr =>
      simp [ownEffects, callEffects, hr, Effect.callee?, Expression.isCall]
    | call hr hb hf =>
      simp [ownEffects, callEffects, hr, hb, hf, Effect.callee?, Expression.isCall]
    | @operation operator _ _ _ _ _ _ ho =>
      cases operator <;> cases ho <;> simp [ownEffects, Expression.isCall]
    | integer | logical | string | name | index | assign | unary | block | conditional | whileLoop
    | forLoop => simp [ownEffects, Effect.callee?, Expression.isCall]
  choice := by simp [choiceEffects, Effect.callee?, Expression.isCall]
  whereClause := rfl

/-- A call that was lowered means the label that it calls. -/
theorem Combines.own_callees {item : Expression} {code : Expr} {own : List Chunk}
    (h : Combines program level id item codes labels code own rest)
    (hk : program.arena.kind? id = some (.expression item)) :
    ((ownEffects program id labels codes item).filterMap Effect.callee?).map some =
      ([id].filter program.arena.isCall).map program.callee? := by
  have he := Arena.expression?_of_kind? hk
  have hcall : program.arena.isCall id = item.isCall := by simp [Arena.isCall, he]
  cases hi : item.isCall with
  | false =>
    rw [(callee?_marks.node h).mpr hi]
    simp [hcall, hi]
  | true =>
    cases h with
    | routine hr =>
      simp [ownEffects, callEffects, hr, Effect.callee?, hcall, hi, Program.callee?, he]
    | call hr hb hf =>
      simp [ownEffects, callEffects, hr, hb, hf, saveFramePointer, Ir.framePointer,
        Ir.stackPointer, List.filterMap_cons, Effect.callee?, hcall, hi, Program.callee?, he]
    | _ => cases hi

/-- An expression calls what its operands call, what it repeats, and what it calls itself. -/
theorem Combines.calledLabels_perm {item : Expression} {code : Expr} {own : List Chunk}
    (h : Combines program level id item codes labels code own rest)
    (hk : program.arena.kind? id = some (.expression item)) :
    (calledLabels [code]).Perm (calledLabels codes ++ calledLabels (repeated codes item) ++
      ([id].filter program.arena.isCall).map program.callee?) := by
  have hperm := (h.filterMap_perm Effect.callee?).map some
  simp only [List.map_append, List.filterMap_append, List.flatMap_append, h.own_callees hk] at hperm
  simpa only [calledLabels_eq, List.flatMap_singleton] using hperm

/-- The code of expressions calls what the calls computed with them mean, and what is repeated; and
nothing is repeated if and only if no target of an assignment calls anything. -/
def CallsAgree (program : Program) (ids : List NodeId) (codes : List Expr) : Prop :=
  ∃ repeated, (calledLabels codes).Perm
      ((ids.flatMap program.arena.calls).map program.callee? ++ repeated) ∧
    (repeated = [] ↔ ∀ id ∈ ids, program.arena.CallsOnce id)

namespace CallsAgree

variable {ids ids' : List NodeId} {codes' : List Expr} {item : Expression} {code : Expr}

theorem append (hf : CallsAgree program ids codes) (hs : CallsAgree program ids' codes') :
    CallsAgree program (ids ++ ids') (codes ++ codes') := by
  obtain ⟨repeated, hp, hn⟩ := hf
  obtain ⟨repeated', hp', hn'⟩ := hs
  refine ⟨repeated ++ repeated', List.perm_iff_count.mpr fun label => ?_, ?_⟩
  · have hcount := hp.count_eq label
    have hcount' := hp'.count_eq label
    simp only [calledLabels, List.flatMap_append, List.map_append, List.count_append]
      at hcount hcount' ⊢
    omega
  · rw [List.append_eq_nil_iff, hn, hn']
    simp only [List.mem_append, or_imp, forall_and]

/-- A node without operands that is neither a call nor an assignment calls nothing. -/
theorem definition (ht : program.arena.IsTree) {definition : Definition}
    (hk : program.arena.kind? id = some (.definition definition)) :
    CallsAgree program [id] [] := by
  have he : program.arena.expression? id = none := by simp [Arena.expression?, hk]
  have hcalls : program.arena.calls id = [] := by
    rw [ht.calls_eq hk, Arena.operands_definition hk]
    simp [Arena.isCall, he]
  have honce : program.arena.CallsOnce id := by
    rw [ht.callsOnce_iff hk, Arena.operands_definition hk]
    simp [Arena.Assigns, he]
  exact ⟨[], by simp [calledLabels, hcalls], by simp [honce]⟩

/-- The expression of a where clause is all that is computed with the clause. -/
theorem whereClause (ht : program.arena.IsTree) {inner body : NodeId}
    (hk : program.arena.kind? id = some (.expression (.whereClause inner body)))
    (h : CallsAgree program [body] codes) : CallsAgree program [id] codes := by
  obtain ⟨repeated, hp, hn⟩ := h
  have he := Arena.expression?_of_kind? hk
  have hcalls : program.arena.calls id = program.arena.calls body := by
    rw [ht.calls_eq hk, Arena.operands_whereClause hk]
    simp [Arena.isCall, he, Expression.isCall]
  have honce : program.arena.CallsOnce id ↔ program.arena.CallsOnce body := by
    rw [ht.callsOnce_iff hk, Arena.operands_whereClause hk]
    simp [Arena.Assigns, he]
  refine ⟨repeated, by simpa [hcalls] using hp, ?_⟩
  rw [hn]
  simp only [List.mem_singleton, forall_eq, honce]

/-- An expression calls what its operands call, something again if its target has calls, and what it
calls itself. -/
theorem node (ht : program.arena.IsTree)
    (hk : program.arena.kind? id = some (.expression item))
    (hw : ∀ inner body, item ≠ .whereClause inner body) {again : List (Option Label)}
    (hp : (calledLabels [code]).Perm (calledLabels codes ++ again ++
      ([id].filter program.arena.isCall).map program.callee?))
    (ha : again = [] ↔ ∀ target, program.arena.Assigns id target →
      program.arena.calls target = [])
    (h : CallsAgree program item.children codes) : CallsAgree program [id] [code] := by
  obtain ⟨repeated, hperm, hnil⟩ := h
  have hchildren := Arena.operands_eq_children hk hw
  refine ⟨repeated ++ again, List.perm_iff_count.mpr fun label => ?_, ?_⟩
  · have hcode := hp.count_eq label
    have hbelow := hperm.count_eq label
    simp only [List.flatMap_singleton, ht.calls_eq hk, hchildren, List.map_append,
      List.count_append] at hcode hbelow ⊢
    omega
  · rw [List.append_eq_nil_iff, hnil, ha]
    simp only [List.mem_singleton, forall_eq, ht.callsOnce_iff hk, hchildren]
    exact and_comm

end CallsAgree

/-- What is repeated calls something if and only if the target of an assignment does. -/
theorem Lowers.calls_repeated_iff {item : Expression} {code : Expr} {own : List Chunk}
    {labels₁ labels₂ labels₃ : LabelSupply} (ht : program.arena.IsTree)
    (hk : program.arena.kind? id = some (.expression item))
    (h : Lowers program level labels₁ (.expressions item.children) codes chunks labels₂)
    (hc : Combines program level id item codes labels₂ code own labels₃) :
    calledLabels (repeated codes item) = [] ↔
      ∀ target, program.arena.Assigns id target → program.arena.calls target = [] := by
  have he := Arena.expression?_of_kind? hk
  by_cases hassign : ∃ left right, item = .binary .assign left right
  · obtain ⟨left, right, rfl⟩ := hassign
    cases hc with
    | operation ho => cases ho
    | @assign _ _ leftCode rightCode _ =>
      cases h with
      | expressions hleft _ =>
        have hcalls := hleft.effects_eq_nil_iff callee?_marks ht
        simpa [calledLabels_eq, repeated, Arena.Assigns, he, Task.ids, Arena.calls, Arena.isCall,
          List.filter_eq_nil_iff] using hcalls
  · have hn : ∀ left right, item ≠ .binary .assign left right :=
      fun left right he => hassign ⟨left, right, he⟩
    obtain ⟨place, first, hs⟩ := ht.exists_subtree hk
    obtain ⟨kind, hk', _, _, hf⟩ := Arena.subtree_iff.mp hs
    cases hk.symm.trans hk'
    have hnothing : calledLabels (repeated codes item) = [] := by
      rw [calledLabels_eq, h.effects_repeated hf hn]
      rfl
    refine ⟨fun _ => ?_, fun _ => hnothing⟩
    rintro target ⟨value, hvalue⟩
    exact absurd (Option.some.inj (he.symm.trans hvalue)) (hn target value)

/-- Whatever is lowered calls what it means, each call once, and what is repeated. -/
theorem Lowers.callsAgree (h : Lowers program level labels task codes chunks rest)
    (ht : program.arena.IsTree) : CallsAgree program task.ids codes := by
  induction h with
  | @node level labels₁ labels₂ labels₃ id item codes code chunks own hk hl hc ih =>
    have hw : ∀ inner body, item ≠ .whereClause inner body := by
      rintro inner body rfl
      cases hc
    exact .node ht hk hw (hc.calledLabels_perm hk) (hl.calls_repeated_iff ht hk hc) ih
  | @choice level labels₁ labels₂ labels₃ id condition thenBranch elseBranch test thenCode elseCode
      chunks others hk hfront helse ihf ihe =>
    have hboth : CallsAgree program [condition, thenBranch, elseBranch]
        [test, thenCode, elseCode] := CallsAgree.append ihf ihe
    have he := Arena.expression?_of_kind? hk
    have hcall : program.arena.isCall id = false := by
      simp [Arena.isCall, he, Expression.isCall]
    have hperm : (calledLabels [choiceCode labels₂ labels₃ test thenCode elseCode]).Perm
        (calledLabels [test, thenCode, elseCode] ++ [] ++
          ([id].filter program.arena.isCall).map program.callee?) := by
      have hcalled := (choiceCode_filterMap_perm labels₂ labels₃ test thenCode elseCode
        Effect.callee?).map some
      simpa [calledLabels_eq, hcall, choiceEffects, List.filterMap_cons, Effect.callee?] using
        hcalled
    exact .node ht hk (by simp) hperm (by simp [Arena.Assigns, he]) hboth
  | @whereClause level labels₁ labels₂ labels₃ id inner body members code chunks others hk hd hl hb
      ihl ihb => exact .whereClause ht hk ihb
  | noExpressions | noDefinitions => exact ⟨[], .refl _, by simp [Task.ids]⟩
  | @expressions level labels₁ labels₂ labels₃ id ids code codes chunks others hf hr ihf ihr =>
    exact CallsAgree.append ihf ihr
  | @definitions level labels₁ labels₂ labels₃ id ids chunks others hf hr ihf ihr =>
    exact CallsAgree.append ihf ihr
  | function hk _ _ => exact .definition ht hk
  | storage hk _ => exact .definition ht hk
  | type hk => exact .definition ht hk
  | parameter hk => exact .definition ht hk

end Lowering

namespace Compilation

variable {compilation : Compilation} {file source : String}

/-- The chunk of a function calls as often as there are calls in its body if and only if no target
of an assignment there calls anything; and then each call in the body is one of these. -/
theorem calls_length_iff (h : ofSource file source = .ok compilation)
    {id result body : NodeId} {name : String} {parameters : List NodeId}
    (hk : compilation.program.arena.kind? id =
      some (.definition (.function name parameters result body))) :
    ∃ frame, compilation.program.layout.frames.get? id = some frame ∧
      (∃ chunk ∈ compilation.chunks.toList, chunk.frame? = some frame) ∧
      ∀ chunk ∈ compilation.chunks.toList, chunk.frame? = some frame →
        (chunk.callees.length = (compilation.program.arena.calls body).length ↔
          compilation.program.arena.CallsOnce body) ∧
        (compilation.program.arena.CallsOnce body →
          (chunk.callees.map some).Perm
            ((compilation.program.arena.calls body).map compilation.program.callee?)) := by
  obtain ⟨root, members, labels, rest, hc⟩ := ofSource_compiled h
  have hlt := hc.index_lt hk (by simp)
  obtain ⟨frame, code, hm, hcodes⟩ := hc.codesOf.total id _ (Nat.zero_le _) hlt hk rfl
  refine ⟨frame, hcodes.1, ⟨_, hm, rfl⟩, fun chunk hchunk hframe => ?_⟩
  cases chunk with
  | data | global => cases hframe
  | code frame' code' =>
    cases hframe
    obtain ⟨other, hf, _, _, _, body', value, hk', rfl, _, _, _, hl⟩ :=
      hc.codesOf.sound frame code' hchunk
    -- the frame of the chunk is that of one function only
    obtain rfl : other = id := hc.frame_unique hf hcodes.1 rfl
    cases hk.symm.trans hk'
    obtain ⟨repeated, hperm, hnil⟩ := hl.callsAgree hc.prepared.tree
    have hcallees : (Chunk.code frame (.move (.memory Ir.framePointer) value)).callees =
        value.collect Ir.Tree.callee? := by
      simp [Chunk.callees, Ir.Stmt.collect, Ir.Expr.collect, Ir.Tree.callee?, Ir.framePointer]
    simp only [Lowering.Task.ids, List.flatMap_singleton, List.mem_singleton, forall_eq,
      Lowering.calledLabels] at hperm hnil
    rw [hcallees, ← hnil]
    have hlength := hperm.length_eq
    simp only [List.length_map, List.length_append] at hlength
    constructor
    · rw [← List.length_eq_zero_iff]
      omega
    · rintro rfl
      simpa using hperm

/-- In a function that assigns the value of a call to a name. -/
theorem calls_length_iff_of_assigned_call :
    ∃ compilation, ofSource "test" "fun f(n: integer): integer = \x7bn = f(f(n))\x7d" =
        .ok compilation ∧ compilation.program.arena.CallsOnce ⟨7⟩ := by
  obtain ⟨compilation, h, hk, hcallees⟩ : ∃ compilation,
      ofSource "test" "fun f(n: integer): integer = \x7bn = f(f(n))\x7d" = .ok compilation ∧
        compilation.program.arena.kind? ⟨8⟩ =
          some (.definition (.function "f" [⟨1⟩] ⟨2⟩ ⟨7⟩)) ∧
        ∀ chunk ∈ compilation.chunks.toList,
          chunk.callees.length = (compilation.program.arena.calls ⟨7⟩).length :=
    exists_of_any (by decide +kernel)
  obtain ⟨frame, _, ⟨chunk, hm, hframe⟩, hall⟩ := calls_length_iff h hk
  exact ⟨compilation, h, (hall chunk hm hframe).1.mp (hcallees chunk hm)⟩

/-- A call in the index of an assigned element is made twice. -/
theorem call_repeated_by_target :
    ∃ compilation, ofSource "test" "fun f(a: arr[1] integer): integer = \x7ba[f(a)] = 2\x7d" =
        .ok compilation ∧
      compilation.program.arena.kind? ⟨10⟩ =
        some (.definition (.function "f" [⟨2⟩] ⟨3⟩ ⟨9⟩)) ∧
      ∃ chunk ∈ compilation.chunks.toList,
        chunk.frame? = compilation.program.layout.frames.get? ⟨10⟩ ∧
          chunk.callees.length ≠ (compilation.program.arena.calls ⟨9⟩).length :=
  exists_of_any (by decide +kernel)

end Compilation

end Pins
