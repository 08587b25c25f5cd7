import Pins.Proofs.Forest

/-!
# The functions around a node

Every node of a tree stands in one function, the innermost one around it, or outside all functions.
What is directly below a function stands in it, its signature included; all else stands where the
node above it stands (`Encloses`). A function is nested at the level of its depth (`Level`), and a
function is around a node if it is met on the way from one enclosing function to the next
(`Around`).

Nothing here looks at names or frames: these notions come from the tree alone.
-/

namespace Pins

namespace NodeKind

/-- A node is the definition of a function. -/
def isFunction : NodeKind → Bool
  | definition (.function ..) => true
  | _ => false

/-- The function that the nodes directly below a node stand in. -/
def scope (kind : NodeKind) (outer : Option NodeId) (id : NodeId) : Option NodeId :=
  if kind.isFunction then some id else outer

theorem scope_function {kind : NodeKind} (h : kind.isFunction = true) (outer : Option NodeId)
    (id : NodeId) : kind.scope outer id = some id := if_pos h

theorem scope_other {kind : NodeKind} (h : kind.isFunction = false) (outer : Option NodeId)
    (id : NodeId) : kind.scope outer id = outer := by simp [scope, h]

end NodeKind

namespace Arena

variable {arena : Arena} {id below other root owner : NodeId} {kind : NodeKind}
  {outer inner middle : Option NodeId} {place : Place} {first last start level : Nat}
  {places : List (Place × NodeId)}

/-- A subtree that has a number of another one lies in it. -/
theorem Subtree.start_le (h : arena.Subtree place first id) {at' : Place}
    (hb : arena.Subtree at' start below) (hf : first ≤ below.index) (hl : below.index ≤ id.index) :
    first ≤ start := by
  obtain ⟨_, found, hs, hle⟩ := Forest.exists_subtree h hf (Nat.lt_succ_of_le hl)
  rw [hb.first_unique hs]
  exact hle

/-- A node behind one member of a forest lies in a subtree that begins behind it. -/
theorem Forest.lt_start (h : arena.Forest first places last) {at' : Place}
    (hm : (place, below) ∈ places) (hs : arena.Subtree at' start id)
    (hlt : below.index < id.index) (hl : id.index < last) : below.index < start := by
  induction places generalizing first with
  | nil => simp at hm
  | cons head others ih =>
    rcases head with ⟨headPlace, headId⟩
    obtain ⟨hhead, ho⟩ := forest_cons_iff.mp h
    rcases List.mem_cons.mp hm with he | hm
    · cases he
      obtain ⟨_, found, hsub, hle⟩ := ho.exists_subtree hlt hl
      rw [hs.first_unique hsub]
      exact hle
    · exact ih ho hm

/-- What is directly below a node has a place there, and its subtree lies in that of the node. -/
theorem Subtree.child_of_mem (h : arena.Subtree place first id)
    (hk : arena.kind? id = some kind) (hm : below ∈ kind.children) :
    ∃ at' start, (at', below) ∈ kind.places ∧ arena.Subtree at' start below ∧ first ≤ start ∧
      below.index < id.index := by
  obtain ⟨⟨at', child⟩, hp, he⟩ := List.mem_map.mp ((NodeKind.mem_children_iff kind below).mp hm)
  cases he
  obtain ⟨start, hs, hle, hlt⟩ := h.child hk hp
  exact ⟨at', start, hp, hs, hle, hlt⟩

/-- Of two nodes with a common node directly below, none has the larger number. -/
theorem IsTree.parent_le (ht : arena.IsTree) {kind' : NodeKind}
    (hk : arena.kind? id = some kind) (hm : below ∈ kind.children)
    (hk' : arena.kind? other = some kind') (hm' : below ∈ kind'.children) :
    other.index ≤ id.index := by
  rcases Nat.lt_or_ge id.index other.index with hlt | hge
  · obtain ⟨_, first, hs⟩ := ht.exists_subtree hk
    obtain ⟨_, _, hs'⟩ := ht.exists_subtree hk'
    obtain ⟨_, start, _, hb, hle, hbl⟩ := hs.child_of_mem hk hm
    obtain ⟨_, _, hp', _, _, _⟩ := hs'.child_of_mem hk' hm'
    obtain ⟨found, hfound, _, _, hf'⟩ := subtree_iff.mp hs'
    cases hk'.symm.trans hfound
    have hbehind := hf'.lt_start hp' hs hbl hlt
    have hbegins := hb.le
    omega
  · exact hge

/-- A node stands directly below one node only. -/
theorem IsTree.parent_unique (ht : arena.IsTree) {kind' : NodeKind}
    (hk : arena.kind? id = some kind) (hm : below ∈ kind.children)
    (hk' : arena.kind? other = some kind') (hm' : below ∈ kind'.children) : id = other :=
  NodeId.eq_of_index <|
    Nat.le_antisymm (ht.parent_le hk' hm' hk hm) (ht.parent_le hk hm hk' hm')

/-- A node stands in a function and in none that is nested deeper, or outside all functions. -/
inductive Encloses (arena : Arena) : Option NodeId → NodeId → Prop where
  | root {root : NodeId} (hr : arena.root = some root) : Encloses arena none root
  | child {outer : Option NodeId} {id below : NodeId} {kind : NodeKind}
      (h : Encloses arena outer id) (hk : arena.kind? id = some kind)
      (hm : below ∈ kind.children) : Encloses arena (kind.scope outer id) below

namespace Encloses

/-- What is directly below a function stands in it. -/
theorem ofFunction (h : arena.Encloses outer id) (hk : arena.kind? id = some kind)
    (hf : kind.isFunction = true) (hm : below ∈ kind.children) :
    arena.Encloses (some id) below :=
  NodeKind.scope_function hf outer id ▸ h.child hk hm

/-- What is directly below any other node stands where that node does. -/
theorem ofOther (h : arena.Encloses outer id) (hk : arena.kind? id = some kind)
    (hf : kind.isFunction = false) (hm : below ∈ kind.children) : arena.Encloses outer below :=
  NodeKind.scope_other hf outer id ▸ h.child hk hm

/-- What is directly below an expression stands where the expression does. -/
theorem ofExpression {item : Expression} (h : arena.Encloses outer id)
    (hk : arena.kind? id = some (.expression item)) (hm : below ∈ item.children) :
    arena.Encloses outer below :=
  h.ofOther hk rfl hm

/-- The root stands below no node of its tree. -/
theorem not_root (ht : arena.IsTree) (hr : arena.root = some root)
    (hk : arena.kind? id = some kind) (hm : root ∈ kind.children) : False := by
  obtain ⟨_, _, hs⟩ := ht.exists_subtree hk
  obtain ⟨found, hfound, hsize, _⟩ := ht
  cases hr.symm.trans hfound
  obtain ⟨_, _, _, _, _, hlt⟩ := hs.child_of_mem hk hm
  have hin := index_lt_size hk
  omega

/-- A node stands in one function only. -/
theorem unique (ht : arena.IsTree) (h : arena.Encloses outer id) (h' : arena.Encloses inner id) :
    outer = inner := by
  induction h generalizing inner with
  | root hr =>
    cases h' with
    | root => rfl
    | child _ hk hm => exact (not_root ht hr hk hm).elim
  | @child outer id below kind _ hk hm ih =>
    cases h' with
    | root hr => exact (not_root ht hr hk hm).elim
    | child h' hk' hm' =>
      obtain rfl := ht.parent_unique hk hm hk' hm'
      cases hk.symm.trans hk'
      rw [ih h']

/-- What a node stands in is a function that stands somewhere itself. -/
theorem isFunction (h : arena.Encloses (some owner) id) :
    ∃ outer kind, arena.kind? owner = some kind ∧ kind.isFunction = true ∧
      arena.Encloses outer owner := by
  generalize he : some owner = enclosing at h
  induction h with
  | root => cases he
  | @child outer id below kind h hk hm ih =>
    cases hf : kind.isFunction with
    | true =>
      rw [NodeKind.scope_function hf] at he
      cases he
      exact ⟨outer, kind, hk, hf, h⟩
    | false => exact ih (by rwa [NodeKind.scope_other hf] at he)

/-- What a node stands in is a function. -/
theorem any_isFunction (h : arena.Encloses (some owner) id) :
    (arena.kind? owner).any NodeKind.isFunction = true := by
  obtain ⟨_, kind, hk, hf, _⟩ := h.isFunction
  rw [hk, Option.any_some, hf]

/-- What stands in a function has a number in its subtree, in front of it. -/
theorem inside (ht : arena.IsTree) (hs : arena.Subtree place first owner)
    (h : arena.Encloses (some owner) id) : first ≤ id.index ∧ id.index < owner.index := by
  generalize he : some owner = enclosing at h
  induction h with
  | root => cases he
  | @child outer id below kind _ hk hm ih =>
    obtain ⟨_, start, hid⟩ := ht.exists_subtree hk
    obtain ⟨_, begins, _, hb, hle, hlt⟩ := hid.child_of_mem hk hm
    have hbl := hb.le
    cases hf : kind.isFunction with
    | true =>
      rw [NodeKind.scope_function hf] at he
      cases he
      obtain rfl := hs.first_unique hid
      exact ⟨by omega, hlt⟩
    | false =>
      rw [NodeKind.scope_other hf] at he
      obtain ⟨hfirst, hlast⟩ := ih he
      have hstart := hs.start_le hid hfirst (by omega)
      exact ⟨by omega, by omega⟩

end Encloses

/-- The number of functions around the nodes that stand in a function, itself included. -/
inductive Level (arena : Arena) : Option NodeId → Nat → Prop where
  | outside : Level arena none 0
  | inside {outer : Option NodeId} {owner : NodeId} {level : Nat}
      (he : arena.Encloses outer owner) (h : Level arena outer level) :
      Level arena (some owner) (level + 1)

/-- A function has one level. -/
theorem Level.unique (ht : arena.IsTree) {level' : Nat} (h : arena.Level outer level)
    (h' : arena.Level outer level') : level = level' := by
  induction h generalizing level' with
  | outside =>
    cases h'
    rfl
  | inside he _ ih =>
    cases h' with
    | inside he' h' =>
      obtain rfl := he.unique ht he'
      rw [ih h']

/-- A function is around another one, or is the same. -/
inductive Around (arena : Arena) : Option NodeId → Option NodeId → Prop where
  | refl (outer : Option NodeId) : Around arena outer outer
  | step {outer middle : Option NodeId} {owner : NodeId} (he : arena.Encloses middle owner)
      (h : Around arena outer middle) : Around arena outer (some owner)

namespace Around

theorem trans (h : arena.Around outer middle) (h' : arena.Around middle inner) :
    arena.Around outer inner := by
  induction h' with
  | refl => exact h
  | step he _ ih => exact .step he ih

/-- The way from a function outwards goes down one level a step. -/
theorem le (ht : arena.IsTree) {target : Nat} (h : arena.Around outer inner)
    (hi : arena.Level inner level) (ho : arena.Level outer target) : target ≤ level := by
  induction h generalizing level with
  | refl => exact Nat.le_of_eq (ho.unique ht hi)
  | step he _ ih =>
    cases hi with
    | inside he' hi =>
      obtain rfl := he.unique ht he'
      exact Nat.le_succ_of_le (ih hi)

end Around

/-- Around a function there is one at each level above that of no function. -/
theorem Level.exists_around {target : Nat} (h : arena.Level outer level) (hle : target ≤ level) :
    ∃ middle, arena.Around middle outer ∧ arena.Level middle target := by
  induction h with
  | outside =>
    obtain rfl := Nat.le_zero.mp hle
    exact ⟨none, .refl none, .outside⟩
  | @inside outer owner level he h ih =>
    rcases Nat.lt_or_eq_of_le hle with hlt | rfl
    · obtain ⟨middle, haround, hmiddle⟩ := ih (Nat.le_of_lt_succ hlt)
      exact ⟨middle, .step he haround, hmiddle⟩
    · exact ⟨some owner, .refl _, .inside he h⟩

/-- A node stands in a function around another one, in that function itself, or outside all
functions. -/
def Reaches (arena : Arena) (outer : Option NodeId) (id : NodeId) : Prop :=
  ∃ enclosing, arena.Encloses enclosing id ∧ arena.Around enclosing outer

/-- What is reached from a function is reached from those inside it. -/
theorem Reaches.mono (h : arena.Reaches outer id) (ha : arena.Around outer inner) :
    arena.Reaches inner id := by
  obtain ⟨enclosing, he, hr⟩ := h
  exact ⟨enclosing, he, hr.trans ha⟩

/-- What a node stands in has a level. -/
theorem Encloses.exists_level (h : arena.Encloses outer id) : ∃ level, arena.Level outer level := by
  induction h with
  | root => exact ⟨0, .outside⟩
  | @child outer id below kind h _ _ ih =>
    obtain ⟨level, hl⟩ := ih
    cases hf : kind.isFunction with
    | true =>
      rw [NodeKind.scope_function hf]
      exact ⟨level + 1, .inside h hl⟩
    | false =>
      rw [NodeKind.scope_other hf]
      exact ⟨level, hl⟩

/-- If the members of a forest stand in functions inside another one, so do all nodes of it. -/
theorem Forest.exists_encloses (h : arena.Forest first places last)
    (hm : ∀ member ∈ places, ∃ inner, arena.Encloses inner member.2 ∧ arena.Around outer inner) :
    ∀ {node : NodeId}, first ≤ node.index → node.index < last →
      ∃ inner, arena.Encloses inner node ∧ arena.Around outer inner := by
  induction h with
  | nil => intro node hf hl; omega
  | @cons first last place id kind others hkind _ _ below behind hb ho =>
    intro node hf hl
    obtain ⟨inner, hid, haround⟩ := hm _ List.mem_cons_self
    rcases Nat.lt_trichotomy node.index id.index with hlt | heq | hgt
    · refine hb (fun member hmem => ?_) hf hlt
      refine ⟨_, hid.child hkind ((NodeKind.mem_children_iff kind _).mpr
        (List.mem_map_of_mem hmem)), ?_⟩
      unfold NodeKind.scope
      split
      · exact .step hid haround
      · exact haround
    · obtain rfl := NodeId.eq_of_index heq
      exact ⟨inner, hid, haround⟩
    · exact ho (fun member hmem => hm member (List.mem_cons_of_mem _ hmem)) (by omega) hl

/-- Every node of a tree stands in a function or outside all functions. -/
theorem IsTree.exists_encloses (ht : arena.IsTree) (hk : arena.kind? id = some kind) :
    ∃ outer, arena.Encloses outer id := by
  obtain ⟨root, hr, hsize, hs⟩ := ht
  have hlt := index_lt_size hk
  have hroot : ∃ inner, arena.Encloses inner root ∧ arena.Around none inner :=
    ⟨none, .root hr, .refl none⟩
  obtain ⟨inner, he, _⟩ := Forest.exists_encloses hs (by simpa using hroot)
    (Nat.zero_le id.index) (by omega)
  exact ⟨inner, he⟩

/-- What stands somewhere is a node. -/
theorem Encloses.exists_kind (ht : arena.IsTree) (h : arena.Encloses outer id) :
    ∃ kind, arena.kind? id = some kind := by
  cases h with
  | root hr =>
    obtain ⟨root, hroot, _, hs⟩ := ht
    cases hr.symm.trans hroot
    obtain ⟨kind, hk, _⟩ := subtree_iff.mp hs
    exact ⟨kind, hk⟩
  | child _ hk hm =>
    obtain ⟨_, _, hs⟩ := ht.exists_subtree hk
    obtain ⟨_, _, _, hb, _, _⟩ := hs.child_of_mem hk hm
    obtain ⟨kind, hkind, _⟩ := subtree_iff.mp hb
    exact ⟨kind, hkind⟩

/-- No node in front of a function in its subtree stands where the function stands. -/
theorem Encloses.not_inside (ht : arena.IsTree) (h : arena.Encloses outer owner)
    (hs : arena.Subtree place first owner) (hk : arena.kind? owner = some kind)
    (hf : kind.isFunction = true) (hfirst : first ≤ id.index) (hlast : id.index < owner.index) :
    ¬arena.Encloses outer id := by
  intro hid
  obtain ⟨found, hfound, _, _, hbelow⟩ := subtree_iff.mp hs
  cases hk.symm.trans hfound
  have hmembers : ∀ member ∈ kind.places,
      ∃ inner, arena.Encloses inner member.2 ∧ arena.Around (some owner) inner := by
    intro member hm
    have hchild := (NodeKind.mem_children_iff kind _).mpr (List.mem_map_of_mem hm)
    exact ⟨some owner, h.ofFunction hk hf hchild, .refl _⟩
  obtain ⟨inner, he, haround⟩ := hbelow.exists_encloses hmembers hfirst hlast
  obtain rfl := he.unique ht hid
  obtain ⟨level, hl⟩ := h.exists_level
  have hle := haround.le ht hl (.inside h hl)
  omega

end Arena

end Pins
