import Pins.Proofs.Acyclic
import Pins.Proofs.Assembled
import Pins.Proofs.UniqueLabels

/-!
# Lowering only extends what there is

Whatever is asked of lowering, and from whatever state, it leaves the level as it was, adds chunks
behind those that there are, keeps the code that is kept, and draws labels that were not drawn
before: also where it stops in the middle of a nested function (`request_extends`). Where it ends
with code, all labels that the code and the new chunks define were drawn on the way, but for the
labels of storage, which the accesses bring along.

The first part holds for every step that lowering is made of, by the rules for passes that go along
a preorder (`Bears`). The second part is about what was lowered, not about the run: it follows the
rules of lowering (`Lowers.drawn`).
-/

namespace Pins.Lowering

open Ir (Effect Expr Tree)
open Pass (Any Moves)

/-- What may be asked of lowering: an expression, a definition or a list of definitions, or a
control structure over some expressions. -/
inductive Request where
  /-- An expression. -/
  | expression (id : NodeId)
  /-- A definition. -/
  | definition (id : NodeId)
  /-- The definitions of a list. -/
  | definitions (id : NodeId)
  /-- A choice. -/
  | conditional (condition thenBranch : NodeId) (elseBranch : Option NodeId)
  /-- A loop under a condition. -/
  | whileLoop (condition body : NodeId)
  /-- A loop that counts. -/
  | forLoop (counter low high step body : NodeId)
deriving DecidableEq, Repr

/-- Does what is asked for, given how to lower expressions. Definitions have no code of their
own. -/
def Request.run (program : Program) (lower : NodeId → Lower Expr) : Request → Lower (List Expr)
  | .expression id => do return [← lower id]
  | .definition id => do
    lowerDefinition program lower id
    return []
  | .definitions id => do
    lowerDefinitions program lower id
    return []
  | .conditional condition thenBranch elseBranch => do
    return [← lowerConditional lower condition thenBranch elseBranch]
  | .whileLoop condition body => do return [← lowerWhile lower condition body]
  | .forLoop counter low high step body => do
    return [← lowerFor lower counter low high step body]

/-- A state has what another one has, and perhaps more, at the same level. -/
structure Extends (before after : State) : Prop where
  /-- The level is the same. -/
  level : after.level = before.level
  /-- Chunks are only added behind the others. -/
  chunks : before.chunks.toList <+: after.chunks.toList
  /-- Code that is kept stays. -/
  trees : ∀ id tree, before.trees.get? id = some tree → after.trees.get? id = some tree
  /-- Labels are only drawn. -/
  labels : before.labels.next ≤ after.labels.next

namespace Extends

instance : IsPreorder State Extends where
  refl _ := ⟨rfl, List.prefix_rfl, fun _ _ h => h, Nat.le_refl _⟩
  trans _ _ _ hf hs :=
    ⟨hs.level.trans hf.level, hf.chunks.trans hs.chunks,
      fun id tree h => hs.trees id tree (hf.trees id tree h), Nat.le_trans hf.labels hs.labels⟩

variable {state : State} {id : NodeId} {tree : Tree} {trees : NodeTable Tree}

/-- More code is kept. -/
theorem store (hs : state.trees.store? id tree = some trees) :
    Extends state { state with trees } :=
  ⟨rfl, List.prefix_rfl, fun _ _ => NodeTable.get?_of_store? hs, Nat.le_refl _⟩

theorem bears : Bears Extends where
  label _ := ⟨rfl, List.prefix_rfl, fun _ _ h => h, Nat.le_succ _⟩
  chunk _ _ := ⟨rfl, by simp, fun _ _ h => h, Nat.le_refl _⟩
  level _ h := ⟨rfl, h.chunks, h.trees, h.labels⟩
  code hs := store hs

end Extends

variable {program : Program} {level : Nat} {id : NodeId} {item : Expression} {task : Task}
  {labels labels₁ labels₂ labels₃ rest : LabelSupply} {code : Expr} {codes others : List Expr}
  {chunks own new : List Chunk} {state between after : State} {label : Label}

/-- Lowering an expression only extends what there is. -/
theorem lowerWithin_extends : ∀ (fuel : Nat) (id : NodeId),
    Moves Extends (lowerWithin program fuel id)
  | 0, _ => broken_moves
  | fuel + 1, id => by
    simp only [lowerWithin, lowerExpression]
    split
    · exact broken_moves
    · refine (expressionCode_moves Extends.bears (lowerWithin_extends fuel)).bind fun code => ?_
      have hrecord : Moves Extends (record program id (.expr code)) :=
        fun _ => record_moves fun _ hs => .store hs
      exact hrecord.bind fun _ => .pure _

/-- Whatever is asked for, it only extends what there is. -/
theorem Request.run_extends {lower : NodeId → Lower Expr}
    (hlower : ∀ below, Moves Extends (lower below)) (request : Request) :
    Moves Extends (request.run program lower) := by
  have hb := Extends.bears
  -- the code of a control structure does not depend on its number, so any number will do
  cases request with
  | expression id => exact (hlower id).bind fun _ => .pure _
  | definition id => exact (lowerDefinition_moves hb hlower).bind fun _ => .pure _
  | definitions id =>
    have hmembers : Moves Extends (lowerDefinitions program lower id) := by
      unfold lowerDefinitions
      split
      · exact .forM fun _ _ => lowerDefinition_moves hb hlower
      · exact broken_moves
    exact hmembers.bind fun _ => .pure _
  | conditional condition thenBranch elseBranch =>
    have hcode : Moves Extends (expressionCode program lower ⟨0⟩
        (.conditional condition thenBranch elseBranch)) := expressionCode_moves hb hlower
    exact hcode.bind fun _ => .pure _
  | whileLoop condition body =>
    have hcode : Moves Extends (expressionCode program lower ⟨0⟩ (.whileLoop condition body)) :=
      expressionCode_moves hb hlower
    exact hcode.bind fun _ => .pure _
  | forLoop counter low high step body =>
    have hcode : Moves Extends (expressionCode program lower ⟨0⟩
        (.forLoop counter low high step body)) := expressionCode_moves hb hlower
    exact hcode.bind fun _ => .pure _

/-- A label is generated, with a number of one supply that another one does not have any more. -/
def Between (labels rest : LabelSupply) (label : Label) : Prop :=
  ∃ number, label = .generated number ∧ labels.next ≤ number ∧ number < rest.next

theorem Between.mono (h : Between labels₂ labels₃ label) (hl : labels₁.next ≤ labels₂.next)
    (hr : labels₃.next ≤ rest.next) : Between labels₁ rest label := by
  obtain ⟨number, rfl, hle, hlt⟩ := h
  exact ⟨number, rfl, Nat.le_trans hl hle, Nat.lt_of_lt_of_le hlt hr⟩

/-- The next label is drawn when labels are taken. -/
theorem between_label (h : labels.next < rest.next) : Between labels rest labels.label :=
  ⟨labels.next, rfl, Nat.le_refl _, h⟩

/-- The labels that codes and chunks define were drawn from a supply, of which a rest is left. -/
structure Drawn (labels rest : LabelSupply) (codes : List Expr) (chunks : List Chunk) : Prop where
  /-- Labels are only drawn. -/
  next_le : labels.next ≤ rest.next
  /-- The codes define labels that were drawn. -/
  codes : ∀ label ∈ codes.flatMap (Expr.collect Tree.label?), Between labels rest label
  /-- So does the code of functions. -/
  bodies : ∀ frame body, .code frame body ∈ chunks →
    ∀ label ∈ body.collect Tree.label?, Between labels rest label
  /-- The characters of a literal stand under a label that was drawn. -/
  data : ∀ access value, .data access value ∈ chunks →
    ∃ size label, access = .global size label ∧ Between labels rest label

namespace Drawn

theorem nil (labels : LabelSupply) : Drawn labels labels [] [] :=
  ⟨Nat.le_refl _, by simp, by simp, by simp⟩

/-- Labels may have been drawn before and behind. -/
theorem mono (h : Drawn labels₂ labels₃ codes chunks) (hl : labels₁.next ≤ labels₂.next)
    (hr : labels₃.next ≤ rest.next) : Drawn labels₁ rest codes chunks where
  next_le := Nat.le_trans hl (Nat.le_trans h.next_le hr)
  codes label hm := (h.codes label hm).mono hl hr
  bodies frame body hm label hlabel := (h.bodies frame body hm label hlabel).mono hl hr
  data access value hm := by
    obtain ⟨size, label, rfl, hlabel⟩ := h.data access value hm
    exact ⟨size, label, rfl, hlabel.mono hl hr⟩

/-- What is lowered one behind the other draws its labels one behind the other. -/
theorem append (hf : Drawn labels₁ labels₂ codes chunks) (hs : Drawn labels₂ labels₃ others new) :
    Drawn labels₁ labels₃ (codes ++ others) (chunks ++ new) := by
  have hfirst := hf.mono (Nat.le_refl _) hs.next_le
  have hsecond := hs.mono hf.next_le (Nat.le_refl _)
  refine ⟨hfirst.next_le, fun label hm => ?_, fun frame body hm => ?_, fun access value hm => ?_⟩
  · rw [List.flatMap_append, List.mem_append] at hm
    exact hm.elim (hfirst.codes label) (hsecond.codes label)
  · exact (List.mem_append.mp hm).elim (hfirst.bodies frame body) (hsecond.bodies frame body)
  · exact (List.mem_append.mp hm).elim (hfirst.data access value) (hsecond.data access value)

/-- Codes may be made into one code that defines no other labels. -/
theorem of_codes (h : Drawn labels rest codes chunks)
    (hc : ∀ label ∈ others.flatMap (Expr.collect Tree.label?), Between labels rest label) :
    Drawn labels rest others chunks :=
  { h with codes := hc }

end Drawn

/-- An expression defines the labels of its operands and those that it draws. -/
theorem Combines.drawn (h : Drawn labels₁ labels₂ codes chunks)
    (hc : Combines program level id item codes labels₂ code own rest) :
    Drawn labels₁ rest [code] (chunks ++ own) := by
  have hnext := hc.next_le
  have hfront := h.mono (Nat.le_refl _) hnext
  -- the labels that an expression draws itself
  have hdrawn : ∀ label ∈ drawnLabels labels₂ item, Between labels₂ rest label := by
    cases hc with
    | string | conditional | whileLoop | forLoop =>
      simp +arith [drawnLabels, Between, LabelSupply.label]
    | @operation operator _ _ _ _ _ _ ho => cases operator <;> simp [drawnLabels]
    | integer | logical | name | routine | call | index | assign | unary | block =>
      simp [drawnLabels]
  have hcodes : ∀ label ∈ [code].flatMap (Expr.collect Tree.label?),
      Between labels₁ rest label := by
    intro label hm
    have hall : label ∈ definedLabels [code] ([] ++ own) := List.mem_append_left _ hm
    rw [← (hc.definedLabels_perm []).mem_iff] at hall
    simp only [definedLabels, List.flatMap_nil, List.append_nil, List.mem_append,
      List.mem_flatMap] at hall
    rcases hall with (⟨operand, hoperand, hlabel⟩ | ⟨operand, hoperand, hlabel⟩) | hlabel
    · exact hfront.codes label (List.mem_flatMap.mpr ⟨operand, hoperand, hlabel⟩)
    · exact hfront.codes label
        (List.mem_flatMap.mpr ⟨operand, mem_of_mem_repeated hoperand, hlabel⟩)
    · exact (hdrawn label hlabel).mono h.next_le (Nat.le_refl _)
  have hown : Drawn labels₂ rest [] own := by
    cases hc with
    | string =>
      refine ⟨hnext, by simp, by simp, fun access value hm => ?_⟩
      obtain ⟨rfl, rfl⟩ : access = .global wordSize labels₂.label ∧ value = _ := by simpa using hm
      exact ⟨wordSize, labels₂.label, rfl, between_label (Nat.lt_succ_self _)⟩
    | integer | logical | name | routine | call | operation | index | assign | unary | block
    | conditional | whileLoop | forLoop => exact ⟨hnext, by simp, by simp, by simp⟩
  exact (h.append hown).of_codes hcodes

/-- A choice defines the labels of its parts, and three more. -/
theorem Drawn.choice {test thenCode elseCode : Expr}
    (hf : Drawn labels₁ labels₂ [test, thenCode] chunks)
    (he : Drawn labels₂.rest.rest labels₃ [elseCode] new) :
    Drawn labels₁ labels₃.rest [choiceCode labels₂ labels₃ test thenCode elseCode]
      (chunks ++ new) := by
  have hle := he.next_le
  simp only [LabelSupply.next_rest] at hle
  have hmiddle : Drawn labels₂ labels₂.rest.rest [] [] :=
    (nil _).mono (Nat.le_refl _) (Nat.le_add_right _ 2)
  have hgenerated : ∀ supply : LabelSupply, labels₂.next ≤ supply.next →
      supply.next ≤ labels₃.next → Between labels₁ labels₃.rest supply.label :=
    fun supply hlow hhigh =>
      ⟨supply.next, rfl, Nat.le_trans hf.next_le hlow, Nat.lt_succ_of_le hhigh⟩
  have hparts := ((hf.append hmiddle).append he).mono (Nat.le_refl _) (Nat.le_succ _)
  rw [List.append_nil, List.append_nil] at hparts
  refine hparts.of_codes fun label hm => ?_
  have hall : label ∈ definedLabels [choiceCode labels₂ labels₃ test thenCode elseCode] [] :=
    List.mem_append_left _ hm
  have hperm := definedLabels_choice labels₂ labels₃ test thenCode elseCode [] []
  rw [List.append_nil] at hperm
  rw [← hperm.mem_iff] at hall
  simp only [definedLabels, List.flatMap_nil, List.append_nil, List.mem_append,
    List.mem_singleton] at hall
  rcases hall with (((hlabel | rfl) | rfl) | hlabel) | rfl
  · exact hparts.codes label (by rw [List.flatMap_append]; exact List.mem_append_left _ hlabel)
  · exact hgenerated labels₂ (Nat.le_refl _) (by omega)
  · exact hgenerated labels₂.rest (Nat.le_succ _) (by simp only [LabelSupply.next_rest]; omega)
  · exact hparts.codes label (by rw [List.flatMap_append]; exact List.mem_append_right _ hlabel)
  · exact hgenerated labels₃ (by omega) (Nat.le_refl _)

/-- Whatever is lowered defines labels that were drawn for it. -/
theorem Lowers.drawn (h : Lowers program level labels task codes chunks rest) :
    Drawn labels rest codes chunks := by
  induction h with
  | node _ _ hcombines ih => exact hcombines.drawn ih
  | choice _ _ _ ihf ihe => exact ihf.choice ihe
  | whereClause _ _ _ _ ihm ihb => exact ihm.append ihb
  | noExpressions | noDefinitions | type | parameter => exact .nil _
  | expressions _ _ ihf ihr => exact ihf.append ihr
  | definitions _ _ ihf ihr => exact ihf.append ihr
  | @function _ _ _ _ _ _ _ _ frame value chunks _ _ _ ih =>
    have hlabels : (Ir.Stmt.move (.memory Ir.framePointer) value).collect Tree.label? =
        [value].flatMap (Expr.collect Tree.label?) := by
      simp [Ir.Stmt.collect, Expr.collect, Tree.label?, Ir.framePointer]
    refine ⟨ih.next_le, by simp, fun found body hm => ?_, fun access text hm => ?_⟩
    · rcases List.mem_append.mp hm with hm | hm
      · exact ih.bodies found body hm
      · cases List.mem_singleton.mp hm
        rw [hlabels]
        exact ih.codes
    · rcases List.mem_append.mp hm with hm | hm
      · exact ih.data access text hm
      · cases List.mem_singleton.mp hm
  | @storage _ labels _ _ _ access =>
    refine ⟨Nat.le_refl _, by simp, fun frame body hm => ?_, fun found value hm => ?_⟩ <;>
      cases access <;> simp [storageChunks] at hm

/-- Between two states codes were made, and chunks were added, whose labels were drawn. -/
def Yields (state : State) (codes : List Expr) (after : State) : Prop :=
  ∃ chunks, after.chunks.toList = state.chunks.toList ++ chunks ∧
    Drawn state.labels after.labels codes chunks

namespace Yields

theorem of_emits (h : Emits program state task codes after) : Yields state codes after := by
  obtain ⟨chunks, hlowers, _, hchunks⟩ := h
  exact ⟨chunks, hchunks, hlowers.drawn⟩

theorem nil (state : State) : Yields state [] state := ⟨[], by simp, .nil _⟩

theorem append (hf : Yields state codes between) (hs : Yields between others after) :
    Yields state (codes ++ others) after := by
  obtain ⟨chunks, hchunks, hdrawn⟩ := hf
  obtain ⟨new, hnew, hdrawn'⟩ := hs
  exact ⟨chunks ++ new, by simp [hnew, hchunks], hdrawn.append hdrawn'⟩

/-- An expression that adds no chunk is made of the codes of its operands. -/
theorem combine (h : Yields state codes between)
    (hc : Combines program level id item codes between.labels code [] rest) :
    Yields state [code] { between with labels := rest } := by
  obtain ⟨chunks, hchunks, hdrawn⟩ := h
  have hwhole := hc.drawn hdrawn
  rw [List.append_nil] at hwhole
  exact ⟨chunks, hchunks, hwhole⟩

end Yields

section Request

variable {lower : NodeId → Lower Expr} (hlower : ∀ below state,
  (lower below).Runs Any state fun code after =>
    Emits program state (.expression below) [code] after)

include hlower

theorem lower_yields (below : NodeId) (state : State) :
    (lower below).Runs Any state fun code after => Yields state [code] after :=
  (hlower below state).mono fun _ _ => .of_emits

theorem lowerConditional_yields {condition thenBranch : NodeId} {elseBranch : Option NodeId} :
    (lowerConditional lower condition thenBranch elseBranch).Runs Any state fun code after =>
      Yields state [code] after := by
  simp only [lowerConditional, freshLabel, Pass.runs_bind, Pass.runs_get, Pass.runs_modify,
    Pass.runs_pure]
  refine (lower_yields hlower condition state).mono fun test tested ht => ?_
  refine (lower_yields hlower thenBranch tested).mono fun thenCode between hb => ?_
  have hfront : Yields state [test, thenCode] between := ht.append hb
  cases elseBranch with
  | none =>
    have hmade : Combines program 0 condition (.conditional condition thenBranch none)
        [test, thenCode] between.labels _ [] between.labels.rest.rest := .conditional
    exact hfront.combine hmade
  | some branch =>
    simp only [Pass.runs_bind, Pass.runs_get, Pass.runs_modify, Pass.runs_pure]
    refine (lower_yields hlower branch _).mono fun elseCode after he => ?_
    obtain ⟨chunks, hchunks, hdrawn⟩ := hfront
    obtain ⟨new, hnew, hdrawn'⟩ := he
    exact ⟨chunks ++ new, by simpa [hchunks] using hnew, hdrawn.choice hdrawn'⟩

theorem lowerWhile_yields {condition body : NodeId} :
    (lowerWhile lower condition body).Runs Any state fun code after =>
      Yields state [code] after := by
  simp only [lowerWhile, freshLabel, Pass.runs_bind, Pass.runs_get, Pass.runs_modify,
    Pass.runs_pure]
  refine (lower_yields hlower condition state).mono fun test tested ht => ?_
  refine (lower_yields hlower body tested).mono fun code between hb => ?_
  have hmade : Combines program 0 condition (.whileLoop condition body) [test, code]
      between.labels _ [] between.labels.rest.rest.rest := .whileLoop
  exact (ht.append hb).combine hmade

theorem lowerFor_yields {counter low high step body : NodeId} :
    (lowerFor lower counter low high step body).Runs Any state fun code after =>
      Yields state [code] after := by
  simp only [lowerFor, freshLabel, Pass.runs_bind, Pass.runs_get, Pass.runs_modify,
    Pass.runs_pure]
  refine (lower_yields hlower counter state).mono fun counterCode s₁ h₁ => ?_
  refine (lower_yields hlower low s₁).mono fun lowCode s₂ h₂ => ?_
  refine (lower_yields hlower high s₂).mono fun highCode s₃ h₃ => ?_
  refine (lower_yields hlower step s₃).mono fun stepCode s₄ h₄ => ?_
  refine (lower_yields hlower body s₄).mono fun code between h₅ => ?_
  have hmade : Combines program 0 counter (.forLoop counter low high step body)
      [counterCode, lowCode, highCode, stepCode, code] between.labels _ []
      between.labels.rest.rest.rest := .forLoop
  exact ((((h₁.append h₂).append h₃).append h₄).append h₅).combine hmade

/-- Whatever is asked for, the labels that its code and its chunks define were drawn for it. -/
theorem Request.run_yields (request : Request) :
    (request.run program lower).Runs Any state fun codes after => Yields state codes after := by
  cases request with
  | expression id =>
    simp only [run, Pass.runs_bind, Pass.runs_pure]
    exact lower_yields hlower id state
  | definition id =>
    simp only [run, Pass.runs_bind, Pass.runs_pure]
    exact (lowerDefinition_emits hlower).mono fun _ _ => .of_emits
  | definitions id =>
    simp only [run, Pass.runs_bind, Pass.runs_pure, lowerDefinitions]
    split
    · exact (forM_emits hlower _ state).mono fun _ _ => .of_emits
    · exact broken_runs
  | conditional condition thenBranch elseBranch =>
    simp only [run, Pass.runs_bind, Pass.runs_pure]
    exact lowerConditional_yields hlower
  | whileLoop condition body =>
    simp only [run, Pass.runs_bind, Pass.runs_pure]
    exact lowerWhile_yields hlower
  | forLoop counter low high step body =>
    simp only [run, Pass.runs_bind, Pass.runs_pure]
    exact lowerFor_yields hlower

end Request

/-- Whatever is asked of lowering, over an arena without cycles and from any state: the bound on its
depth is not met, and whether it ends with code or stops, the level is as it was, the chunks that
there were stand in front, code that was kept is kept, and no label comes back. If it ends with
code, the code and the new chunks define only labels that were drawn on the way. -/
theorem request_extends (ha : program.arena.Acyclic) (request : Request) (state : State) :
    (∀ fuel, program.arena.size < fuel →
      request.run program (lowerWithin program fuel) = request.run program (lower program)) ∧
    Extends state (Pass.reached (request.run program (lower program) state)) ∧
    ∀ codes after, request.run program (lower program) state = .ok codes after →
      Yields state codes after := by
  refine ⟨fun fuel hf => ?_, ?_, fun codes after hrun => ?_⟩
  · rw [lowerWithin_eq_lower ha hf]
  · exact request.run_extends (lowerWithin_extends _) state
  · exact (request.run_yields (lowerWithin_emits _)).of_ok hrun

/-- A function that is lowered behind three labels that were drawn before. Its string literal gets
the next one. -/
theorem request_extends_of_text : ∃ compilation,
    Compilation.ofSource "test" "fun f(): string = 'a'" = .ok compilation ∧
    compilation.program.arena.Acyclic ∧
    Extends (.initial ⟨3⟩) (Pass.reached
      ((Request.definitions ⟨3⟩).run compilation.program (lower compilation.program)
        (.initial ⟨3⟩))) ∧
    ∃ codes after, (Request.definitions ⟨3⟩).run compilation.program
      (lower compilation.program) (.initial ⟨3⟩) = .ok codes after ∧
        Yields (.initial ⟨3⟩) codes after := by
  obtain ⟨compilation, h, hrun⟩ : ∃ compilation,
      Compilation.ofSource "test" "fun f(): string = 'a'" = .ok compilation ∧
      (Pass.finalState ((Request.definitions ⟨3⟩).run compilation.program
        (lower compilation.program)) (.initial ⟨3⟩)).isOk = true :=
    Compilation.exists_of_any (by decide +kernel)
  obtain ⟨_, _, _, _, hcompiled⟩ := Compilation.ofSource_compiled h
  have hacyclic := hcompiled.prepared.tree.acyclic
  obtain ⟨_, hextends, hyields⟩ := request_extends hacyclic (.definitions ⟨3⟩) (.initial ⟨3⟩)
  refine ⟨compilation, h, hacyclic, hextends, ?_⟩
  cases hr : (Request.definitions ⟨3⟩).run compilation.program (lower compilation.program)
      (.initial ⟨3⟩) with
  | error diagnostic after =>
    rw [Pass.finalState, hr] at hrun
    cases hrun
  | ok codes after => exact ⟨codes, after, rfl, hyields codes after hr⟩

end Pins.Lowering
