import Mathlib.Data.List.Nodup
import Mathlib.Data.List.Perm.Subperm
import Mathlib.Logic.Relation
import Pins.Lowering
import Pins.Proofs.Runs
import Pins.Proofs.Storage

/-!
# Arenas without cycles

Lowering has a bound on its depth. In an arena in which no node is below itself, a path downwards
meets no node twice, so it is no longer than the arena has nodes, and the bound is never met
(`Lowering.lowerWithin_eq_lower`): it does not matter which one is chosen.
-/

namespace Pins

open Relation

namespace Arena

variable {arena : Arena} {above below id : NodeId} {path : List NodeId}

/-- A node stands directly below another one. -/
def Above (arena : Arena) (above below : NodeId) : Prop :=
  ∃ kind, arena.kind? above = some kind ∧ below ∈ kind.children

/-- No node is below itself. -/
def Acyclic (arena : Arena) : Prop := ∀ id, ¬ TransGen arena.Above id id

/-- In a tree, numbers grow from below to above, so no node is below itself. -/
theorem IsTree.acyclic (ht : arena.IsTree) : arena.Acyclic := by
  have hlt : ∀ {above below : NodeId}, TransGen arena.Above above below →
      below.index < above.index := by
    intro above below h
    induction h with
    | single hstep =>
      obtain ⟨_, hk, hm⟩ := hstep
      exact ht.index_lt hk hm
    | tail _ hstep ih =>
      obtain ⟨_, hk, hm⟩ := hstep
      exact Nat.lt_trans (ht.index_lt hk hm) ih
  exact fun id h => Nat.lt_irrefl _ (hlt h)

/-- What has a node below it is a node. -/
theorem index_lt_of_transGen (h : TransGen arena.Above above below) :
    above.index < arena.size := by
  obtain ⟨_, hfirst, _⟩ := TransGen.head'_iff.mp h
  obtain ⟨_, hk, _⟩ := hfirst
  exact index_lt_size hk

/-- A path that meets no node twice is no longer than the arena has nodes. -/
theorem length_le_size (hn : path.Nodup) (hp : ∀ id ∈ path, id.index < arena.size) :
    path.length ≤ arena.size := by
  have hnodup : (path.map NodeId.index).Nodup :=
    hn.map fun _ _ he => NodeId.eq_of_index he
  have hsubset : path.map NodeId.index ⊆ List.range arena.size := by
    intro index hm
    obtain ⟨id, hid, rfl⟩ := List.mem_map.mp hm
    exact List.mem_range.mpr (hp id hid)
  have hlength := (List.subperm_of_subset hnodup hsubset).length_le
  simpa using hlength

end Arena

namespace Pass

variable {σ α ι : Type}

/-- Steps that agree on the members of a list find the same values for the list. -/
theorem mapM_congr {step step' : ι → Pass σ α} {members : List ι}
    (h : ∀ member ∈ members, step member = step' member) :
    members.mapM step = members.mapM step' := by
  induction members with
  | nil => rfl
  | cons member others ih =>
    simp only [List.mapM_cons]
    rw [h member List.mem_cons_self, ih fun other hm => h other (List.mem_cons_of_mem _ hm)]

end Pass

namespace Lowering

variable {program : Program} {id : NodeId} {item : Expression} {path : List NodeId}
  {fuel fuel' : Nat}

section

variable {lower lower' : NodeId → Lower Ir.Expr}
  (h : ∀ below, TransGen program.arena.Above id below → lower below = lower' below)

include h

/-- A definition asks only for what is below it. -/
theorem lowerDefinition_congr :
    lowerDefinition program lower id = lowerDefinition program lower' id := by
  unfold lowerDefinition
  split
  · rfl
  · next name parameters result body hd =>
    have hbody : program.arena.Above id body :=
      ⟨_, Arena.kind?_of_definition? hd, by simp [NodeKind.children, Definition.children]⟩
    simp only [lowerFunction, h body (.single hbody)]
  · rfl
  · rfl

/-- An expression asks only for what is below it. -/
theorem expressionCode_congr (hk : program.arena.kind? id = some (.expression item)) :
    expressionCode program lower id item = expressionCode program lower' id item := by
  have hchild : ∀ below ∈ item.children, lower below = lower' below :=
    fun below hm => h below (.single ⟨_, hk, hm⟩)
  cases item with
  | literal | name => rfl
  | call callee arguments =>
    have harguments : arguments.mapM lower = arguments.mapM lower' := Pass.mapM_congr hchild
    simp only [expressionCode, lowerCall, harguments]
  | binary operator left right =>
    simp only [expressionCode, hchild left (by simp [Expression.children]),
      hchild right (by simp [Expression.children])]
  | unary operator operand =>
    simp only [expressionCode, hchild operand (by simp [Expression.children])]
  | block expressions =>
    simp only [expressionCode, lowerBlock]
    split
    · rfl
    · next last hlast =>
      have hfront : ∀ member ∈ expressions.dropLast,
          (do return Ir.Stmt.exp (← lower member) : Lower Ir.Stmt) =
            (do return Ir.Stmt.exp (← lower' member)) := by
        intro member hm
        rw [hchild member (List.dropLast_subset expressions hm)]
      rw [Pass.mapM_congr hfront, hchild last (List.mem_of_getLast? hlast)]
  | conditional condition thenBranch elseBranch =>
    cases elseBranch with
    | none =>
      simp only [expressionCode, lowerConditional, hchild condition (by simp [Expression.children]),
        hchild thenBranch (by simp [Expression.children])]
    | some branch =>
      simp only [expressionCode, lowerConditional, hchild condition (by simp [Expression.children]),
        hchild thenBranch (by simp [Expression.children]),
        hchild branch (by simp [Expression.children])]
  | whileLoop condition body =>
    simp only [expressionCode, lowerWhile, hchild condition (by simp [Expression.children]),
      hchild body (by simp [Expression.children])]
  | forLoop counter low high step body =>
    simp only [expressionCode, lowerFor, hchild counter (by simp [Expression.children]),
      hchild low (by simp [Expression.children]), hchild high (by simp [Expression.children]),
      hchild step (by simp [Expression.children]), hchild body (by simp [Expression.children])]
  | whereClause inner body =>
    have hinner : program.arena.Above id inner :=
      ⟨_, hk, by simp [NodeKind.children, Expression.children]⟩
    have hmembers : lowerDefinitions program lower inner =
        lowerDefinitions program lower' inner := by
      unfold lowerDefinitions
      split
      · next members hd =>
        refine Pass.forM_congr fun member hm => lowerDefinition_congr fun below hb => ?_
        exact h below (.head hinner (.head ⟨_, hd, hm⟩ hb))
      · rfl
    simp only [expressionCode, hmembers, hchild body (by simp [Expression.children])]

end

/-- Behind a path from above, bounds do not matter that leave room for the nodes off the path. -/
theorem lowerWithin_eq (ha : program.arena.Acyclic) (spare : Nat) (hn : path.Nodup)
    (hp : ∀ above ∈ path, TransGen program.arena.Above above id)
    (hspare : program.arena.size ≤ path.length + spare) (hf : spare < fuel) (hf' : spare < fuel') :
    lowerWithin program fuel id = lowerWithin program fuel' id := by
  induction spare using Nat.strongRecOn generalizing path id fuel fuel' with
  | ind spare ih =>
    obtain ⟨fuel, rfl⟩ : ∃ fewer, fuel = fewer + 1 := ⟨fuel - 1, by omega⟩
    obtain ⟨fuel', rfl⟩ : ∃ fewer, fuel' = fewer + 1 := ⟨fuel' - 1, by omega⟩
    simp only [lowerWithin, lowerExpression]
    cases he : program.arena.expression? id with
    | none => rfl
    | some item =>
      have hk := Arena.kind?_of_expression? he
      have hlonger : (id :: path).Nodup := List.nodup_cons.mpr ⟨fun hm => ha id (hp id hm), hn⟩
      have hnodes : ∀ node ∈ id :: path, node.index < program.arena.size := by
        intro node hm
        rcases List.mem_cons.mp hm with rfl | hm
        · exact Arena.index_lt_size hk
        · exact Arena.index_lt_of_transGen (hp node hm)
      -- the path fits into the arena, so what is spare shrinks as the path grows
      have hlength := Arena.length_le_size hlonger hnodes
      rw [List.length_cons] at hlength
      have hsame : ∀ below, TransGen program.arena.Above id below →
          lowerWithin program fuel below = lowerWithin program fuel' below := by
        intro below hb
        have hbelow : ∀ above ∈ id :: path, TransGen program.arena.Above above below := by
          intro above hm
          rcases List.mem_cons.mp hm with rfl | hm
          · exact hb
          · exact (hp above hm).trans hb
        exact ih (spare - 1) (by omega) hlonger hbelow (by simp only [List.length_cons]; omega)
          (by omega) (by omega)
      dsimp only
      rw [expressionCode_congr hsame hk]

/-- Without cycles, any bound above the number of nodes lowers every expression. -/
theorem lowerWithin_eq_lower (ha : program.arena.Acyclic) (hf : program.arena.size < fuel) :
    lowerWithin program fuel = lower program :=
  funext fun _ => lowerWithin_eq ha program.arena.size List.nodup_nil (by simp) (by simp) hf
    program.arena.size_lt_depthBound

end Lowering

end Pins
