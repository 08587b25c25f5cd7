import Pins.Proofs.Forest

/-!
# What an expression computes itself

The operands of an expression are the expressions directly below it; of a where clause this is the
expression in front of the definitions only. `Arena.own` lists an expression with everything that is
reached through operands, so the bodies of functions it defines are left out: they are not run when
the expression is.

Properties of all assignments in an interval of a tree are put together from those of its parts
(`Arena.targets_append_iff`).
-/

namespace Pins

namespace Expression

/-- The expression is a choice or a loop. -/
def isControl : Expression → Bool
  | conditional .. | whileLoop .. | forLoop .. => true
  | _ => false

/-- The expression is a call. -/
def isCall : Expression → Bool
  | call .. => true
  | _ => false

end Expression

/-- A node of this kind has no code and no storage of its own. -/
def NodeKind.isSilent : NodeKind → Bool
  | definition (.function ..) | definition (.var ..) => false
  | expression (.whereClause ..) => true
  | expression _ => false
  | definitions _ | definition _ | type _ => true

namespace Arena

variable {arena : Arena} {first middle last : Nat} {id below : NodeId} {place : Place}
  {places : List (Place × NodeId)} {kind : NodeKind} {item : Expression} {fits : NodeId → Prop}

/-- The expressions whose values an expression is computed from. -/
def operands (arena : Arena) (id : NodeId) : List NodeId :=
  match arena.expression? id with
  | some (.whereClause _ body) => [body]
  | some item => item.children
  | none => []

/-- The expressions that are computed with an expression, down to `fuel` levels. -/
def ownWithin (arena : Arena) : Nat → NodeId → List NodeId
  | 0, _ => []
  | fuel + 1, id => id :: (arena.operands id).flatMap (arena.ownWithin fuel)

/-- The expressions that are computed with an expression, itself included. -/
def own (arena : Arena) : NodeId → List NodeId := arena.ownWithin arena.depthBound

/-- A node is a choice or a loop. -/
def isControl (arena : Arena) (id : NodeId) : Bool :=
  (arena.expression? id).any Expression.isControl

/-- A node is a call. -/
def isCall (arena : Arena) (id : NodeId) : Bool := (arena.expression? id).any Expression.isCall

/-- A node is an assignment to a target. -/
def Assigns (arena : Arena) (id target : NodeId) : Prop :=
  ∃ value, arena.expression? id = some (.binary .assign target value)

theorem expression?_of_kind? (hk : arena.kind? id = some (.expression item)) :
    arena.expression? id = some item := by
  simp [expression?, hk]

/-- Operands stand directly below an expression. -/
theorem mem_children_of_mem_operands (hm : below ∈ arena.operands id) :
    ∃ item, arena.kind? id = some (.expression item) ∧ below ∈ item.children := by
  unfold operands at hm
  split at hm
  · next inner body he =>
    refine ⟨_, kind?_of_expression? he, ?_⟩
    simp_all [Expression.children]
  · next item _ he => exact ⟨item, kind?_of_expression? he, hm⟩
  · simp at hm

/-- Operands of a node have smaller numbers. -/
theorem IsTree.index_lt_of_mem_operands (h : arena.IsTree) (hm : below ∈ arena.operands id) :
    below.index < id.index := by
  obtain ⟨item, hk, hc⟩ := mem_children_of_mem_operands hm
  obtain ⟨place, first, hs⟩ := h.exists_subtree hk
  have hp := (NodeKind.mem_children_iff (.expression item) below).mp hc
  obtain ⟨⟨at', child⟩, hm', he⟩ := List.mem_map.mp hp
  obtain ⟨_, _, _, hl⟩ := hs.child hk hm'
  exact he ▸ hl

/-- Any bound above the number of a node is deep enough for what is computed with it. -/
theorem IsTree.ownWithin_eq (h : arena.IsTree) {fuel more : Nat} (hf : id.index < fuel)
    (hm : id.index < more) : arena.ownWithin fuel id = arena.ownWithin more id := by
  induction fuel generalizing id more with
  | zero => omega
  | succ fuel ih =>
    cases more with
    | zero => omega
    | succ more =>
      have hbelow : ∀ below ∈ arena.operands id,
          arena.ownWithin fuel below = arena.ownWithin more below := by
        intro below hb
        have hlt := h.index_lt_of_mem_operands hb
        exact ih (by omega) (by omega)
      simp only [ownWithin, List.flatMap_def, List.map_congr_left hbelow]

/-- With an expression are computed itself and what is computed with its operands. -/
theorem IsTree.own_eq (h : arena.IsTree) (hk : arena.kind? id = some kind) :
    arena.own id = id :: (arena.operands id).flatMap arena.own := by
  have hsize := index_lt_size hk
  have hdepth := arena.size_lt_depthBound
  have hbelow : ∀ below ∈ arena.operands id,
      arena.ownWithin id.index below = arena.own below := by
    intro below hb
    have hlt := h.index_lt_of_mem_operands hb
    exact h.ownWithin_eq hlt (by omega)
  have hid : arena.own id = arena.ownWithin (id.index + 1) id :=
    h.ownWithin_eq (by omega) (Nat.lt_succ_self _)
  rw [hid]
  simp only [ownWithin, List.flatMap_def, List.map_congr_left hbelow]

/-- An expression is computed with itself. -/
theorem mem_own (arena : Arena) (id : NodeId) : id ∈ arena.own id := by
  have hdepth := arena.size_lt_depthBound
  obtain ⟨fuel, hfuel⟩ : ∃ fuel, arena.depthBound = fuel + 1 := ⟨arena.depthBound - 1, by omega⟩
  rw [own, hfuel]
  exact List.mem_cons_self

/-- What is computed with an expression is itself and what is computed with its operands. -/
theorem IsTree.forall_own_iff (h : arena.IsTree) (hk : arena.kind? id = some kind) :
    (∀ part ∈ arena.own id, fits part) ↔
      fits id ∧ ∀ below ∈ arena.operands id, ∀ part ∈ arena.own below, fits part := by
  rw [h.own_eq hk]
  simp only [List.mem_cons, List.mem_flatMap, forall_eq_or_imp, forall_exists_index, and_imp]
  exact and_congr_right fun _ => ⟨fun hf below hb part hp => hf part below hb hp,
    fun hf part below hb hp => hf below hb part hp⟩

/-- The operands of an expression other than a where clause are all expressions below it. -/
theorem operands_eq_children (hk : arena.kind? id = some (.expression item))
    (hw : ∀ inner body, item ≠ .whereClause inner body) : arena.operands id = item.children := by
  unfold operands
  rw [expression?_of_kind? hk]
  cases item with
  | whereClause inner body => exact absurd rfl (hw inner body)
  | call | binary | block | forLoop | whileLoop | name | conditional | literal | unary => rfl

/-- The operand of a where clause is the expression in front of the definitions. -/
theorem operands_whereClause {inner body : NodeId}
    (hk : arena.kind? id = some (.expression (.whereClause inner body))) :
    arena.operands id = [body] := by
  unfold operands
  rw [expression?_of_kind? hk]

/-- What is no expression has no operands. -/
theorem operands_definition {definition : Definition}
    (hk : arena.kind? id = some (.definition definition)) : arena.operands id = [] := by
  simp [operands, expression?, hk]

/-- The targets of all assignments in an interval are fit. -/
def Targets (arena : Arena) (fits : NodeId → Prop) (first last : Nat) : Prop :=
  ∀ id target, first ≤ id.index → id.index < last → arena.Assigns id target → fits target

/-- The targets in an interval are fit exactly if they are in both of its parts. -/
theorem targets_append_iff (hl : first ≤ middle) (hr : middle ≤ last) :
    arena.Targets fits first last ↔
      arena.Targets fits first middle ∧ arena.Targets fits middle last := by
  constructor
  · intro h
    exact ⟨fun id target hf hm => h id target hf (by omega),
      fun id target hm hl => h id target (by omega) hl⟩
  · rintro ⟨hf, hs⟩ id target hi ht ha
    rcases Nat.lt_or_ge id.index middle with hlt | hge
    · exact hf id target hi hlt ha
    · exact hs id target hge ht ha

/-- No node has no targets. -/
theorem targets_refl : arena.Targets fits first first := fun _ _ hf hl => absurd hl (by omega)

/-- A node that is no assignment has no target. -/
theorem targets_of_kind (hk : arena.kind? id = some kind)
    (hn : ∀ left right, kind ≠ .expression (.binary .assign left right)) :
    arena.Targets fits id.index (id.index + 1) := by
  rintro other target hf hl ⟨value, he⟩
  obtain rfl : other = id := NodeId.eq_of_index (by omega)
  have hkind := kind?_of_expression? he
  exact absurd (Option.some.inj (hk.symm.trans hkind)) (hn target value)

/-- An assignment has one target. -/
theorem targets_assign_iff {left right : NodeId}
    (hk : arena.kind? id = some (.expression (.binary .assign left right))) :
    arena.Targets fits id.index (id.index + 1) ↔ fits left := by
  have he := expression?_of_kind? hk
  constructor
  · intro h
    exact h id left (Nat.le_refl _) (Nat.lt_succ_self _) ⟨right, he⟩
  · rintro h other target hf hl ⟨value, ho⟩
    obtain rfl : other = id := NodeId.eq_of_index (by omega)
    rw [he] at ho
    cases ho
    exact h

/-- No node of an interval has code or storage of its own. -/
def Silent (arena : Arena) (first last : Nat) : Prop :=
  ∀ id kind, first ≤ id.index → id.index < last → arena.kind? id = some kind → kind.isSilent = true

theorem silent_refl : arena.Silent first first := fun _ _ hf hl => absurd hl (by omega)

theorem silent_of_kind (hk : arena.kind? id = some kind) (hs : kind.isSilent = true) :
    arena.Silent id.index (id.index + 1) := by
  intro other kind' hf hl hk'
  obtain rfl : other = id := NodeId.eq_of_index (by omega)
  cases hk.symm.trans hk'
  exact hs

/-- Parameters and written types are silent. -/
theorem Forest.silent (h : arena.Forest first places last)
    (hp : ∀ member ∈ places, member.1 = Place.type ∨ member.1 = Place.parameter) :
    arena.Silent first last := by
  intro id kind hf hl hk
  obtain ⟨kind', hk', hs⟩ := h.signature hp hf hl
  cases hk.symm.trans hk'
  cases kind with
  | definition item => cases item <;> first | rfl | cases hs
  | type => rfl
  | definitions | expression => cases hs

/-- Where all is silent, nothing is assigned. -/
theorem Silent.targets (h : arena.Silent first last) : arena.Targets fits first last := by
  rintro id target hf hl ⟨value, he⟩
  cases h id _ hf hl (kind?_of_expression? he)

end Arena

end Pins
