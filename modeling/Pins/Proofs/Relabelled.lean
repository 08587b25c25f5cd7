import Pins.Chunk
import Pins.NodeTable
import Pins.Proofs.Follows
import Pins.Proofs.Sweep

/-!
# Other numbers for generated labels

A `Renumbering` gives generated labels other numbers. It is carried over to whatever mentions a
label: frames, accesses, code and chunks (`relabel`). Where two runs draw labels at the same pace,
the second one from another number on, each of its labels is the one of the first run renumbered
(`Supplies.rest`).
-/

namespace Pins

/-- The label with another number, if it was generated. -/
def Label.relabel (renumber : Nat → Nat) : Label → Label
  | named name => .named name
  | generated number => .generated (renumber number)

/-- The frame with another number for its label. -/
def Frame.relabel (renumber : Nat → Nat) (frame : Frame) : Frame :=
  { frame with label := frame.label.relabel renumber }

/-- The draft with another number for its label. -/
def FrameDraft.relabel (renumber : Nat → Nat) (draft : FrameDraft) : FrameDraft :=
  ⟨draft.frame.relabel renumber⟩

/-- The access with another number for its label. -/
def Access.relabel (renumber : Nat → Nat) : Access → Access
  | global size label => .global size (label.relabel renumber)
  | other => other

theorem Label.relabel_id (label : Label) : label.relabel id = label := by
  cases label <;> rfl

theorem Frame.relabel_id (frame : Frame) : frame.relabel id = frame := by
  rw [relabel, Label.relabel_id]

theorem Access.relabel_id (access : Access) : access.relabel id = access := by
  cases access with
  | global size label => rw [relabel, Label.relabel_id]
  | inFrame | parameter => rfl

section

variable (first second : Nat → Nat)

theorem Label.relabel_relabel (label : Label) :
    (label.relabel first).relabel second = label.relabel (second ∘ first) := by
  cases label <;> rfl

theorem Frame.relabel_relabel (frame : Frame) :
    (frame.relabel first).relabel second = frame.relabel (second ∘ first) := by
  simp only [relabel, Label.relabel_relabel]

theorem Access.relabel_relabel (access : Access) :
    (access.relabel first).relabel second = access.relabel (second ∘ first) := by
  cases access with
  | global size label => simp only [relabel, Label.relabel_relabel]
  | inFrame | parameter => rfl

end

namespace Ir

mutual

/-- The code with other numbers for its labels. -/
def Expr.relabel (renumber : Nat → Nat) : Expr → Expr
  | .constant value => .constant value
  | .name label => .name (label.relabel renumber)
  | .memory address => .memory (address.relabel renumber)
  | .binop operator left right =>
    .binop operator (left.relabel renumber) (right.relabel renumber)
  | .call label arguments =>
    .call (label.relabel renumber) (Expr.relabelAll renumber arguments)
  | .eseq statement value => .eseq (statement.relabel renumber) (value.relabel renumber)

/-- The list of code with other numbers for its labels. -/
def Expr.relabelAll (renumber : Nat → Nat) : List Expr → List Expr
  | [] => []
  | first :: rest => first.relabel renumber :: Expr.relabelAll renumber rest

/-- The code with other numbers for its labels. -/
def Stmt.relabel (renumber : Nat → Nat) : Stmt → Stmt
  | .move destination source => .move (destination.relabel renumber) (source.relabel renumber)
  | .exp value => .exp (value.relabel renumber)
  | .seq statements => .seq (Stmt.relabelAll renumber statements)
  | .label label => .label (label.relabel renumber)
  | .jump target => .jump (target.relabel renumber)
  | .cjump condition thenTarget elseTarget =>
    .cjump (condition.relabel renumber) (thenTarget.relabel renumber)
      (elseTarget.relabel renumber)

/-- The list of code with other numbers for its labels. -/
def Stmt.relabelAll (renumber : Nat → Nat) : List Stmt → List Stmt
  | [] => []
  | first :: rest => first.relabel renumber :: Stmt.relabelAll renumber rest

end

/-- The code of a node with other numbers for its labels. -/
def Tree.relabel (renumber : Nat → Nat) : Tree → Tree
  | expr code => .expr (code.relabel renumber)
  | stmt code => .stmt (code.relabel renumber)

variable {renumber : Nat → Nat}

@[simp] theorem Expr.relabelAll_eq_map (codes : List Expr) :
    Expr.relabelAll renumber codes = codes.map (Expr.relabel renumber) := by
  induction codes with
  | nil => rfl
  | cons code others ih => rw [Expr.relabelAll, ih, List.map_cons]

@[simp] theorem Stmt.relabelAll_eq_map (codes : List Stmt) :
    Stmt.relabelAll renumber codes = codes.map (Stmt.relabel renumber) := by
  induction codes with
  | nil => rfl
  | cons code others ih => rw [Stmt.relabelAll, ih, List.map_cons]

@[simp] theorem relabel_framePointer : framePointer.relabel renumber = framePointer := by
  simp [framePointer, Expr.relabel, Label.relabel]

@[simp] theorem relabel_stackPointer : stackPointer.relabel renumber = stackPointer := by
  simp [stackPointer, Expr.relabel, Label.relabel]

@[simp] theorem relabel_staticLink (depth : Nat) :
    (staticLink depth).relabel renumber = staticLink depth := by
  induction depth with
  | zero => exact relabel_framePointer
  | succ depth ih => rw [staticLink, Expr.relabel, ih]

mutual

theorem Expr.relabel_id : ∀ code : Expr, code.relabel id = code
  | .constant _ => rfl
  | .name label => by rw [Expr.relabel, Label.relabel_id]
  | .memory address => by rw [Expr.relabel, address.relabel_id]
  | .binop _ left right => by rw [Expr.relabel, left.relabel_id, right.relabel_id]
  | .call label arguments => by
    rw [Expr.relabel, Label.relabel_id, Expr.relabelAll_id arguments]
  | .eseq statement value => by rw [Expr.relabel, statement.relabel_id, value.relabel_id]

theorem Expr.relabelAll_id : ∀ codes : List Expr, Expr.relabelAll id codes = codes
  | [] => rfl
  | first :: rest => by rw [Expr.relabelAll, first.relabel_id, Expr.relabelAll_id rest]

theorem Stmt.relabel_id : ∀ code : Stmt, code.relabel id = code
  | .move destination source => by
    rw [Stmt.relabel, destination.relabel_id, source.relabel_id]
  | .exp value => by rw [Stmt.relabel, value.relabel_id]
  | .seq statements => by rw [Stmt.relabel, Stmt.relabelAll_id statements]
  | .label label => by rw [Stmt.relabel, Label.relabel_id]
  | .jump target => by rw [Stmt.relabel, Label.relabel_id]
  | .cjump condition thenTarget elseTarget => by
    rw [Stmt.relabel, condition.relabel_id, Label.relabel_id, Label.relabel_id]

theorem Stmt.relabelAll_id : ∀ codes : List Stmt, Stmt.relabelAll id codes = codes
  | [] => rfl
  | first :: rest => by rw [Stmt.relabelAll, first.relabel_id, Stmt.relabelAll_id rest]

end

/-- Numbers may be replaced by themselves. -/
theorem Tree.relabel_id (tree : Tree) : tree.relabel id = tree := by
  cases tree with
  | expr code => rw [Tree.relabel, code.relabel_id]
  | stmt code => rw [Tree.relabel, code.relabel_id]

section

variable (first second : Nat → Nat)

mutual

theorem Expr.relabel_relabel : ∀ code : Expr,
    (code.relabel first).relabel second = code.relabel (second ∘ first)
  | .constant _ => rfl
  | .name label => by simp only [Expr.relabel, Label.relabel_relabel]
  | .memory address => by simp only [Expr.relabel, address.relabel_relabel]
  | .binop _ left right => by
    simp only [Expr.relabel, left.relabel_relabel, right.relabel_relabel]
  | .call label arguments => by
    simp only [Expr.relabel, Label.relabel_relabel, Expr.relabelAll_relabelAll arguments]
  | .eseq statement value => by
    simp only [Expr.relabel, statement.relabel_relabel, value.relabel_relabel]

theorem Expr.relabelAll_relabelAll : ∀ codes : List Expr,
    Expr.relabelAll second (Expr.relabelAll first codes) = Expr.relabelAll (second ∘ first) codes
  | [] => rfl
  | code :: others => by
    simp only [Expr.relabelAll, code.relabel_relabel, Expr.relabelAll_relabelAll others]

theorem Stmt.relabel_relabel : ∀ code : Stmt,
    (code.relabel first).relabel second = code.relabel (second ∘ first)
  | .move destination source => by
    simp only [Stmt.relabel, destination.relabel_relabel, source.relabel_relabel]
  | .exp value => by simp only [Stmt.relabel, value.relabel_relabel]
  | .seq statements => by simp only [Stmt.relabel, Stmt.relabelAll_relabelAll statements]
  | .label label => by simp only [Stmt.relabel, Label.relabel_relabel]
  | .jump target => by simp only [Stmt.relabel, Label.relabel_relabel]
  | .cjump condition thenTarget elseTarget => by
    simp only [Stmt.relabel, condition.relabel_relabel, Label.relabel_relabel]

theorem Stmt.relabelAll_relabelAll : ∀ codes : List Stmt,
    Stmt.relabelAll second (Stmt.relabelAll first codes) = Stmt.relabelAll (second ∘ first) codes
  | [] => rfl
  | code :: others => by
    simp only [Stmt.relabelAll, code.relabel_relabel, Stmt.relabelAll_relabelAll others]

end

/-- Numbers may be replaced twice. -/
theorem Tree.relabel_relabel (tree : Tree) :
    (tree.relabel first).relabel second = tree.relabel (second ∘ first) := by
  cases tree with
  | expr code => simp only [Tree.relabel, Expr.relabel_relabel]
  | stmt code => simp only [Tree.relabel, Stmt.relabel_relabel]

end

end Ir

/-- The chunk with other numbers for its labels. -/
def Chunk.relabel (renumber : Nat → Nat) : Chunk → Chunk
  | code frame body => .code (frame.relabel renumber) (body.relabel renumber)
  | data access value => .data (access.relabel renumber) value
  | global access => .global (access.relabel renumber)

theorem Chunk.relabel_id (chunk : Chunk) : chunk.relabel id = chunk := by
  cases chunk with
  | code frame body => rw [relabel, Frame.relabel_id, body.relabel_id]
  | data access value => rw [relabel, Access.relabel_id]
  | global access => rw [relabel, Access.relabel_id]

theorem Chunk.relabel_relabel (first second : Nat → Nat) (chunk : Chunk) :
    (chunk.relabel first).relabel second = chunk.relabel (second ∘ first) := by
  cases chunk with
  | code frame body => simp only [relabel, Frame.relabel_relabel, Ir.Stmt.relabel_relabel]
  | data access value => simp only [relabel, Access.relabel_relabel]
  | global access => simp only [relabel, Access.relabel_relabel]

/-- Other numbers for generated labels. Those from `start` up to `limit`, which is excluded, get
numbers from `start'` on, in order. -/
structure Renumbering where
  /-- The number behind the change. -/
  renumber : Nat → Nat
  /-- The first number that a first run draws. -/
  start : Nat
  /-- The first number that a second run draws. -/
  start' : Nat
  /-- A number that the first run does not draw any more. -/
  limit : Nat
  /-- The two runs draw at the same pace. -/
  shifts : ∀ number, start ≤ number → number < limit → renumber number + start = number + start'

/-- All labels up to a limit keep their numbers. -/
abbrev Renumbering.same (limit : Nat) : Renumbering := ⟨id, 0, 0, limit, fun _ _ _ => rfl⟩

theorem Frame.map_relabel_same (limit : Nat) (found : Option Frame) :
    found.map (Frame.relabel (Renumbering.same limit).renumber) = found := by
  rw [funext Frame.relabel_id, Option.map_id']

theorem Access.map_relabel_same (limit : Nat) (found : Option Access) :
    found.map (Access.relabel (Renumbering.same limit).renumber) = found := by
  rw [funext Access.relabel_id, Option.map_id']

/-- Two supplies of labels have been drawn from at the same pace. -/
structure Supplies (r : Renumbering) (labels labels' : LabelSupply) : Prop where
  /-- The first run draws from its first number on. -/
  start : r.start ≤ labels.next
  /-- As many labels were drawn in the second run. -/
  pace : labels'.next + r.start = labels.next + r.start'

namespace Supplies

variable {r : Renumbering} {labels labels' : LabelSupply}

/-- From the same supply, labels are drawn that keep their numbers. -/
theorem same (labels : LabelSupply) (limit : Nat) : Supplies (.same limit) labels labels :=
  ⟨Nat.zero_le _, rfl⟩

/-- If labels keep their numbers, the supplies are the same. -/
theorem eq_of_same {limit : Nat} (h : Supplies (.same limit) labels labels') :
    labels' = labels := by
  have hpace := h.pace
  cases labels
  cases labels'
  exact congrArg LabelSupply.mk (Nat.add_right_cancel hpace)

/-- The next label of the second supply is that of the first one, renumbered. -/
theorem label (h : Supplies r labels labels') (hl : labels.rest.next ≤ r.limit) :
    labels'.label = labels.label.relabel r.renumber := by
  have hshift := r.shifts labels.next h.start hl
  have hpace := h.pace
  simp only [LabelSupply.label, Label.relabel, Label.generated.injEq]
  omega

theorem rest (h : Supplies r labels labels') : Supplies r labels.rest labels'.rest := by
  have hstart := h.start
  have hpace := h.pace
  constructor <;> simp only [LabelSupply.next_rest] <;> omega

end Supplies

namespace FrameDraft

variable {renumber : Nat → Nat}

@[simp] theorem start_relabel (label : Label) (level : Nat) :
    (start label level).relabel renumber = start (label.relabel renumber) level := rfl

/-- Labels take no part in the room for parameters. -/
theorem reserveParameter?_relabel (draft : FrameDraft) (size : Nat) :
    (draft.relabel renumber).reserveParameter? size =
      (draft.reserveParameter? size).map fun found => (found.1, found.2.relabel renumber) := by
  by_cases hroom : draft.frame.parametersSize + size ≤ maxObjectSize <;>
    simp [reserveParameter?_eq, relabel, Frame.relabel, hroom]

/-- Labels take no part in the room for locals. -/
theorem reserveLocal?_relabel (draft : FrameDraft) (size : Nat) :
    (draft.relabel renumber).reserveLocal? size =
      (draft.reserveLocal? size).map fun found => (found.1, found.2.relabel renumber) := by
  by_cases hroom : draft.frame.localsSize + size + 2 * wordSize ≤ maxObjectSize <;>
    simp [reserveLocal?_eq, relabel, Frame.relabel, hroom]

end FrameDraft

namespace NodeTable

variable {α : Type} {known : NodeId → Prop} {agrees : NodeId → α → α → Prop}
  {before before' table table' after : NodeTable α} {id : NodeId} {value value' : α}

/-- Two tables were filled side by side since they were `before` and `before'`: the known nodes have
values that agree, and nothing else was changed. -/
structure Mirrors (known : NodeId → Prop) (agrees : NodeId → α → α → Prop)
    (before before' table table' : NodeTable α) : Prop where
  /-- Known nodes have values that agree, or none in both tables. -/
  inside : ∀ id, known id → Option.Rel (agrees id) (table.get? id) (table'.get? id)
  /-- Nothing else is changed in the first table. -/
  outside : ∀ id, ¬ known id → table.get? id = before.get? id
  /-- Nothing else is changed in the second one. -/
  outside' : ∀ id, ¬ known id → table'.get? id = before'.get? id

namespace Mirrors

/-- Tables that have values that agree mirror each other. -/
theorem refl (h : ∀ id, known id → Option.Rel (agrees id) (table.get? id) (table'.get? id)) :
    Mirrors known agrees table table' table table' :=
  ⟨h, fun _ _ => rfl, fun _ _ => rfl⟩

/-- Nothing was filled in for the known nodes yet. -/
theorem unset (h : ∀ id, known id → table.get? id = none)
    (h' : ∀ id, known id → table'.get? id = none) :
    Mirrors known agrees table table' table table' :=
  .refl fun id hid => by
    rw [h id hid, h' id hid]
    exact .none

/-- Nothing was filled in yet. -/
theorem empty : Mirrors known agrees (NodeTable.empty : NodeTable α) .empty .empty .empty :=
  .refl fun id _ => by simp

/-- Where the first table can keep a value, the second one can. -/
theorem store? (h : Mirrors known agrees before before' table table') (hid : known id)
    (hv : agrees id value value') (hs : table.store? id value = some after) :
    ∃ after', table'.store? id value' = some after' ∧
      Mirrors known agrees before before' after after' := by
  have hfree : table.get? id = none := by
    cases hg : table.get? id with
    | none => rfl
    | some kept =>
      rw [(store?_eq_none_iff table id value).mpr (by rw [hg]; rfl)] at hs
      cases hs
  have hfree' : table'.get? id = none := by
    have hrel := h.inside id hid
    rw [hfree] at hrel
    generalize table'.get? id = found at hrel ⊢
    cases hrel
    rfl
  obtain ⟨after', hs'⟩ := exists_store? value' hfree'
  refine ⟨after', hs', fun other ho => ?_, fun other ho => ?_, fun other ho => ?_⟩
  · rw [get?_store? hs, get?_store? hs']
    split
    · next he => exact he ▸ .some hv
    · exact h.inside other ho
  · rw [get?_store? hs, if_neg (by rintro rfl; exact ho hid), h.outside other ho]
  · rw [get?_store? hs', if_neg (by rintro rfl; exact ho hid), h.outside' other ho]

/-- Where the first table has a value already, the second one has one. -/
theorem store?_eq_none (h : Mirrors known agrees before before' table table') (hid : known id)
    (value' : α) (hs : table.store? id value = none) : table'.store? id value' = none := by
  rw [store?_eq_none_iff] at hs ⊢
  have hrel := h.inside id hid
  cases hg : table.get? id <;> cases hg' : table'.get? id <;> simp_all

/-- Known nodes have the same value, changed, or none in both tables. -/
theorem inside_eq_map {change : α → α} (h : Mirrors known agrees before before' table table')
    (hid : known id) (ha : ∀ value value', agrees id value value' → value' = change value) :
    table'.get? id = (table.get? id).map change := by
  have hrel := h.inside id hid
  generalize table.get? id = found, table'.get? id = found' at hrel
  cases hrel with
  | some hv => rw [Option.map_some, ha _ _ hv]
  | none => rfl

/-- Tables that were filled side by side from empty ones on hold the same, changed. -/
theorem get?_eq_map {change : α → α} (h : Mirrors known agrees .empty .empty table table')
    (ha : known id → ∀ value value', agrees id value value' → value' = change value) :
    table'.get? id = (table.get? id).map change := by
  by_cases hid : known id
  · exact h.inside_eq_map hid (ha hid)
  · rw [h.outside id hid, h.outside' id hid, get?_empty, Option.map_none]

/-- Tables that were filled side by side from empty ones on are the same if their values are. -/
theorem eq_of_empty (h : Mirrors known agrees .empty .empty table table')
    (ha : ∀ id value value', agrees id value value' → value' = value) : table' = table := by
  refine ext_get? fun id => ?_
  rw [h.get?_eq_map fun _ value value' hv => ha id value value' hv, Option.map_id']

end Mirrors

end NodeTable

end Pins
