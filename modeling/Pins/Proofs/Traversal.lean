import Pins.Proofs.Storage

/-!
# One traversal of a tree

`Arena.traversal` lists a node behind everything below it, and what is below it in the order of the
program, where the definitions of a where clause come before the expression in front of them. From
the root on this is every node of the arena once (`IsTree.traversal_root_perm`).

The numbers of the nodes give another order, in which the definitions of a where clause come behind
the expression: both list the same nodes of a subtree, since a subtree fills an interval of numbers.
-/

namespace Pins

/-- The nodes directly below a node stand in its places, perhaps in another order. -/
theorem NodeKind.children_perm (kind : NodeKind) :
    kind.children.Perm (kind.places.map Prod.snd) := by
  cases kind with
  | definitions members => simp [children, places, Function.comp_def]
  | type item => simp [children, places, Function.comp_def]
  | definition item =>
    cases item <;> simp [children, places, Definition.children, Function.comp_def]
  | expression item =>
    cases item <;>
      simp [children, places, Expression.children, Function.comp_def, List.Perm.swap]

namespace Arena

variable {arena : Arena} {id below root : NodeId} {kind : NodeKind} {place : Place}
  {first middle last : Nat} {places : List (Place × NodeId)}

/-- A node behind all that is below it, down to `fuel` levels. -/
def traversalWithin (arena : Arena) : Nat → NodeId → List NodeId
  | 0, _ => []
  | fuel + 1, id =>
    match arena.kind? id with
    | none => []
    | some kind => kind.children.flatMap (arena.traversalWithin fuel) ++ [id]

/-- A node behind all that is below it. -/
def traversal (arena : Arena) : NodeId → List NodeId := arena.traversalWithin arena.depthBound

/-- Any bound above the number of a node is deep enough for its traversal. -/
theorem IsTree.traversalWithin_eq (ht : arena.IsTree) {fuel more : Nat} (hf : id.index < fuel)
    (hm : id.index < more) : arena.traversalWithin fuel id = arena.traversalWithin more id := by
  induction fuel generalizing id more with
  | zero => omega
  | succ fuel ih =>
    cases more with
    | zero => omega
    | succ more =>
      cases hk : arena.kind? id with
      | none => simp only [traversalWithin, hk]
      | some kind =>
        have hbelow : ∀ below ∈ kind.children,
            arena.traversalWithin fuel below = arena.traversalWithin more below := by
          intro below hb
          have hlt := ht.index_lt hk hb
          exact ih (by omega) (by omega)
        simp only [traversalWithin, hk, List.flatMap_def, List.map_congr_left hbelow]

/-- A node is met behind the traversals of the nodes directly below it. -/
theorem IsTree.traversal_eq (ht : arena.IsTree) (hk : arena.kind? id = some kind) :
    arena.traversal id = kind.children.flatMap arena.traversal ++ [id] := by
  have hsize := index_lt_size hk
  have hdepth := arena.size_lt_depthBound
  have hbelow : ∀ below ∈ kind.children,
      arena.traversalWithin id.index below = arena.traversal below := by
    intro below hb
    have hlt := ht.index_lt hk hb
    exact ht.traversalWithin_eq hlt (by omega)
  have hid : arena.traversal id = arena.traversalWithin (id.index + 1) id :=
    ht.traversalWithin_eq (by omega) (Nat.lt_succ_self _)
  rw [hid]
  simp only [traversalWithin, hk, List.flatMap_def, List.map_congr_left hbelow]

/-- The nodes with numbers from `first` up to `last`, which is excluded. -/
def interval (first last : Nat) : List NodeId :=
  (List.range' first (last - first)).map NodeId.mk

/-- A node is in an interval if its number is. -/
@[simp] theorem mem_interval_iff :
    id ∈ interval first last ↔ first ≤ id.index ∧ id.index < last := by
  simp only [interval, List.mem_map, List.mem_range'_1]
  constructor
  · rintro ⟨index, hi, rfl⟩
    dsimp only
    omega
  · intro h
    exact ⟨id.index, by omega, rfl⟩

@[simp] theorem interval_self : interval first first = [] := by simp [interval]

/-- Neighbouring intervals are one. -/
theorem interval_append (hl : first ≤ middle) (hr : middle ≤ last) :
    interval first middle ++ interval middle last = interval first last := by
  have hstart : first + (middle - first) = middle := by omega
  have hlength : middle - first + (last - middle) = last - first := by omega
  rw [interval, interval, interval, ← List.map_append, ← hlength, ← List.range'_append_1, hstart]

/-- A node is an interval. -/
theorem interval_succ (id : NodeId) : interval id.index (id.index + 1) = [id] := by
  have hone : id.index + 1 - id.index = 1 := by omega
  rw [interval, hone]
  rfl

/-- Traversing the members of a forest meets each node of the forest once. -/
theorem Forest.traversal_perm (ht : arena.IsTree) (h : arena.Forest first places last) :
    ((places.map Prod.snd).flatMap arena.traversal).Perm (interval first last) := by
  induction h with
  | nil => simp
  | @cons first last place id kind others hkind _ _ below behind hb ho =>
    have hle := below.le
    have hlast := behind.le
    have hchildren : (kind.children.flatMap arena.traversal).Perm (interval first id.index) :=
      (kind.children_perm.flatMap_right arena.traversal).trans hb
    have hid : (arena.traversal id).Perm (interval first (id.index + 1)) := by
      rw [ht.traversal_eq hkind, ← interval_append hle (Nat.le_succ _), interval_succ]
      exact hchildren.append_right [id]
    rw [List.map_cons, List.flatMap_cons, ← interval_append (Nat.le_succ_of_le hle) hlast]
    exact hid.append ho

/-- Traversing a subtree meets each of its nodes once. -/
theorem Subtree.traversal_perm (ht : arena.IsTree) (h : arena.Subtree place first id) :
    (arena.traversal id).Perm (interval first (id.index + 1)) := by
  simpa using Forest.traversal_perm ht h

/-- Traversing a tree meets each of its nodes once. -/
theorem IsTree.traversal_root_perm (ht : arena.IsTree) (hr : arena.root = some root) :
    (arena.traversal root).Perm arena.ids := by
  obtain ⟨found, hfound, hsize, hs⟩ := ht
  cases hr.symm.trans hfound
  have hids : arena.ids = interval 0 (root.index + 1) := by
    rw [ids, interval, hsize, List.range_eq_range', Nat.sub_zero]
  rw [hids]
  exact hs.traversal_perm ⟨root, hr, hsize, hs⟩

end Arena

end Pins
