import Pins.Builtin
import Pins.Proofs.Follows
import Pins.Proofs.Storage

/-!
# Arenas that differ in names

Two arenas are `Alike` on some nodes if these stand for the same in both, but for the names that
they define or refer to. Whatever looks at one of these nodes only looks at others of them, so a
pass over the one arena is followed by the pass over the other one.

Where the arenas do not even differ in names, a pass that stops over the one stops for the same
fault over the other. Otherwise the faults differ, and the comparison has to excuse them all.
-/

namespace Pins

/-- The definition with another name. -/
def Definition.named (name : String) : Definition → Definition
  | function _ parameters result body => .function name parameters result body
  | var _ written => .var name written
  | type _ written => .type name written
  | parameter _ written => .parameter name written

/-- The expression with another name, if it is a name or a call of one. -/
def Expression.named (name : String) : Expression → Expression
  | call _ arguments => .call name arguments
  | .name _ => .name name
  | other => other

/-- The written type with another name, if it is one. -/
def WrittenType.named (name : String) : WrittenType → WrittenType
  | .name _ => .name name
  | other => other

namespace NodeKind

/-- The node with another name in place of the one it defines or refers to. -/
def named (name : String) : NodeKind → NodeKind
  | definitions members => .definitions members
  | definition item => .definition (item.named name)
  | expression item => .expression (item.named name)
  | type item => .type (item.named name)

/-- The name that a node defines or refers to. -/
def word? : NodeKind → Option String
  | definition item => some item.name
  | expression (.call callee _) => some callee
  | expression (.name word) => some word
  | type (.name word) => some word
  | _ => none

/-- A node with its own name is the node. -/
theorem named_eq_self {kind : NodeKind} {name : String} (h : ∀ word ∈ kind.word?, name = word) :
    kind.named name = kind := by
  cases kind with
  | definitions => rfl
  | definition item =>
    obtain rfl := h item.name rfl
    cases item <;> rfl
  | expression item =>
    cases item with
    | call callee => obtain rfl := h callee rfl; rfl
    | name word => obtain rfl := h word rfl; rfl
    | _ => rfl
  | type item =>
    cases item with
    | name word => obtain rfl := h word rfl; rfl
    | _ => rfl

/-- A call may get another name if that does not make it one of a routine or keep it from being
one. -/
def Keeps (name : String) : NodeKind → Prop
  | expression (.call callee _) =>
    name = callee ∨ Builtin.isRoutine callee = false ∧ Builtin.isRoutine name = false
  | _ => True

end NodeKind

namespace Arena

variable {σ : Type} {c : Pass.Comparison σ} {names : NodeId → String} {arena arena' : Arena}
  {known : NodeId → Prop} {id : NodeId} {kind : NodeKind}

/-- The name that a node defines or refers to, if it has one. -/
def word (arena : Arena) (id : NodeId) : String := ((arena.kind? id).bind NodeKind.word?).getD ""

/-- Two arenas have the same nodes, up to names, where a pass over the one is compared with a pass
over the other. -/
structure Alike (c : Pass.Comparison σ) (names : NodeId → String) (arena arena' : Arena)
    (known : NodeId → Prop) : Prop where
  /-- A node stands for the same in both arenas, but for its name. -/
  kind : ∀ {id}, known id → ∃ kind, arena.kind? id = some kind ∧
    arena'.kind? id = some (kind.named (names id)) ∧ kind.Keeps (names id)
  /-- The nodes are closed under what is below them. -/
  child : ∀ {id kind}, known id → arena.kind? id = some kind → ∀ below ∈ kind.children, known below
  /-- All diagnostics are excused, or the nodes are the same and their faults go together. -/
  exact : (∀ diagnostic, c.excuses diagnostic) ∨ ∀ id, known id →
    arena'.kind? id = arena.kind? id ∧
      ∀ fault, c.blames ⟨fault, arena.position id⟩ ⟨fault, arena'.position id⟩

/-- A node of equal arenas has its own name in both. -/
theorem named_eq_self {name : String} (hid : known id) (hk : arena.kind? id = some kind)
    (hk' : arena'.kind? id = some (kind.named name))
    (he : ∀ other, known other → arena'.kind? other = arena.kind? other) :
    kind.named name = kind := by
  have hname := he id hid
  rwa [hk, hk', Option.some.injEq] at hname

/-- Faults go together if they are equal as soon as all names are. -/
theorem Alike.fault {fault found : Fault} (h : Alike c names arena arena' known) (hid : known id)
    (he : (∀ other, known other → arena'.kind? other = arena.kind? other) → found = fault) :
    c.excuses ⟨fault, arena.position id⟩ ∨
      c.blames ⟨fault, arena.position id⟩ ⟨found, arena'.position id⟩ := by
  rcases h.exact with hx | hsame
  · exact .inl (hx _)
  · exact .inr (he (fun other ho => (hsame other ho).1) ▸ (hsame id hid).2 fault)

/-- Below a number, the nodes of a tree are alike in all arenas that have them. -/
theorem IsTree.alike {last : Nat} (ht : arena.IsTree) (hlast : last ≤ arena.size)
    (hk : ∀ id : NodeId, id.index < last → arena'.kind? id = arena.kind? id)
    (hb : ∀ (id : NodeId) fault, id.index < last →
      c.blames ⟨fault, arena.position id⟩ ⟨fault, arena'.position id⟩) :
    Alike c arena.word arena arena' fun id => id.index < last where
  kind := by
    intro id hid
    have hinside : id.index < arena.nodes.size := Nat.lt_of_lt_of_le hid hlast
    obtain ⟨kind, hkind⟩ : ∃ kind, arena.kind? id = some kind := by simp [kind?, node?, hinside]
    have hself : kind.named (arena.word id) = kind :=
      NodeKind.named_eq_self fun word hw => by simp [Arena.word, hkind, Option.mem_def.mp hw]
    refine ⟨kind, hkind, by rw [hk id hid, hkind, hself], ?_⟩
    unfold NodeKind.Keeps
    split
    · exact .inl (by simp [Arena.word, hkind, NodeKind.word?])
    · trivial
  child := by
    intro id kind hid hkind below hm
    have hlt : below.index < id.index := ht.index_lt hkind hm
    omega
  exact := .inr fun id hid => ⟨hk id hid, fun fault => hb id fault hid⟩

end Arena

end Pins
