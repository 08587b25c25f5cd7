import Pins.Syntax.Arena

/-!
# Tables under node numbers

What a pass finds out about nodes is kept in a table that holds at most one value per node and never
replaces one. `get?` is the view of a table: `get?_store?` says what storing does to it, and a table
is nothing else than its view (`ext_get?`).
-/

namespace Pins

/-- At most one value for every node. -/
structure NodeTable (α : Type) where
  /-- The values in the order of the node numbers, with gaps. -/
  slots : Array (Option α)
  /-- No gap stands behind the last value. -/
  back_ne_gap : slots.back? ≠ some none := by simp
deriving DecidableEq, Repr

namespace NodeTable

variable {α : Type}

/-- The table without values. -/
def empty : NodeTable α := { slots := #[] }

/-- The value of a node. -/
def get? (table : NodeTable α) (id : NodeId) : Option α := (table.slots[id.index]?).join

/-- The node has a value. -/
def contains (table : NodeTable α) (id : NodeId) : Bool := (table.get? id).isSome

/-- The slots of a table, extended by gaps so that a node has one. -/
def reserve (table : NodeTable α) (id : NodeId) : Array (Option α) :=
  table.slots ++ Array.replicate (id.index + 1 - table.slots.size) none

/-- A value that is put into a reserved slot leaves no gap behind the last value. -/
theorem back?_reserve_ne_gap (table : NodeTable α) (id : NodeId) (value : α) :
    ((table.reserve id).setIfInBounds id.index (some value)).back? ≠ some none := by
  have hback := table.back_ne_gap
  simp only [Array.back?_eq_getElem?, Array.size_setIfInBounds, Array.getElem?_setIfInBounds]
  have hsize : (table.reserve id).size = max table.slots.size (id.index + 1) := by
    simp [reserve]
    omega
  rw [hsize]
  split
  · simp
  · next hother =>
    -- the slot is not the last one, which the table had before
    have hlast : max table.slots.size (id.index + 1) - 1 = table.slots.size - 1 := by omega
    have hinside : table.slots.size - 1 < table.slots.size := by omega
    rw [hlast, reserve, Array.getElem?_append_left hinside]
    rwa [Array.back?_eq_getElem?] at hback

/-- The table with a value for a node that has none yet. -/
def store? (table : NodeTable α) (id : NodeId) (value : α) : Option (NodeTable α) :=
  if table.contains id then none
  else some ⟨(table.reserve id).setIfInBounds id.index (some value),
    table.back?_reserve_ne_gap id value⟩

/-- The entries of a table in the order of the node numbers. -/
def entries (table : NodeTable α) : List (NodeId × α) :=
  table.slots.toList.zipIdx.filterMap fun slot => slot.1.map fun value => (⟨slot.2⟩, value)

/-- The number of values. -/
def size (table : NodeTable α) : Nat := table.entries.length

/-- The table has no value. -/
def isEmpty (table : NodeTable α) : Bool := table.entries.isEmpty

@[simp] theorem get?_empty (id : NodeId) : (empty : NodeTable α).get? id = none := by
  simp [get?, empty]

/-- Reserved slots are gaps. -/
theorem getElem?_reserve (table : NodeTable α) (id other : NodeId) :
    ((table.reserve id)[other.index]?).join = table.get? other := by
  simp only [reserve, get?, Array.getElem?_append, Array.getElem?_replicate]
  split
  · rfl
  · next outside =>
    rw [Array.getElem?_eq_none (Nat.le_of_not_lt outside)]
    split <;> rfl

/-- Storing gives the node its value and leaves every other node alone. -/
theorem get?_store? {table after : NodeTable α} {id : NodeId} {value : α}
    (stored : table.store? id value = some after) (other : NodeId) :
    after.get? other = if other = id then some value else table.get? other := by
  unfold store? at stored
  split at stored
  · cases stored
  · cases stored
    have room : id.index < (table.reserve id).size := by simp [reserve]; omega
    by_cases same : other = id
    · subst same
      simp [get?, room]
    · have distinct : id.index ≠ other.index := fun equal =>
        same (by cases other; cases id; simp_all)
      rw [if_neg same, ← getElem?_reserve table id other]
      simp [get?, distinct]

/-- Storing fails exactly for a node that has a value. -/
theorem store?_eq_none_iff (table : NodeTable α) (id : NodeId) (value : α) :
    table.store? id value = none ↔ (table.get? id).isSome := by
  unfold store? contains
  split <;> simp_all

/-- Storing replaces no value. -/
theorem get?_of_store? {table after : NodeTable α} {id other : NodeId} {value found : α}
    (stored : table.store? id value = some after) (kept : table.get? other = some found) :
    after.get? other = some found := by
  rw [get?_store? stored, if_neg ?_, kept]
  rintro rfl
  have free : table.store? other value = none :=
    (store?_eq_none_iff table other value).mpr (by rw [kept]; rfl)
  cases stored.symm.trans free

/-- The entries of a table are its values under their nodes. -/
theorem mem_entries_iff (table : NodeTable α) (id : NodeId) (value : α) :
    (id, value) ∈ table.entries ↔ table.get? id = some value := by
  have slot : (id, value) ∈ table.entries ↔ table.slots[id.index]? = some (some value) := by
    simp only [entries, List.mem_filterMap, Option.map_eq_some_iff, Prod.mk.injEq, Prod.exists]
    constructor
    · rintro ⟨_, index, listed, found, rfl, rfl, rfl⟩
      simpa using List.mk_mem_zipIdx_iff_getElem?.mp listed
    · intro kept
      have listed : (some value, id.index) ∈ table.slots.toList.zipIdx :=
        List.mk_mem_zipIdx_iff_getElem?.mpr (by simpa using kept)
      exact ⟨some value, id.index, listed, value, rfl, rfl, rfl⟩
  rw [slot, get?, Option.join_eq_some_iff]

/-- A table has no more slots than another one that has all of its values. -/
theorem size_slots_le {table other : NodeTable α} (h : ∀ id, table.get? id = other.get? id) :
    table.slots.size ≤ other.slots.size := by
  rcases Nat.lt_or_ge other.slots.size table.slots.size with hlt | hge
  · -- the last value of the larger table has no slot in the other one
    have hinside : table.slots.size - 1 < table.slots.size := by omega
    have hlast : other.get? ⟨table.slots.size - 1⟩ = none := by
      simp [get?, Array.getElem?_eq_none (Nat.le_sub_one_of_lt hlt)]
    have hback := table.back_ne_gap
    rw [Array.back?_eq_getElem?, Array.getElem?_eq_getElem hinside] at hback
    rw [← h, get?, Array.getElem?_eq_getElem hinside, Option.join_some] at hlast
    exact absurd (congrArg some hlast) hback
  · exact hge

/-- Tables with the same values are one table. -/
theorem ext_get? {table other : NodeTable α} (h : ∀ id, table.get? id = other.get? id) :
    table = other := by
  have hsize : table.slots.size = other.slots.size :=
    Nat.le_antisymm (size_slots_le h) (size_slots_le fun id => (h id).symm)
  have hslots : table.slots = other.slots := by
    refine Array.ext hsize fun index hi hj => ?_
    have hslot := h ⟨index⟩
    rwa [get?, get?, Array.getElem?_eq_getElem hi, Array.getElem?_eq_getElem hj, Option.join_some,
      Option.join_some] at hslot
  cases table
  cases other
  cases hslots
  rfl

/-- A table has at most one entry for a node. -/
theorem pairwise_entries (table : NodeTable α) :
    table.entries.Pairwise fun first second => first.1 ≠ second.1 := by
  have indices : table.slots.toList.zipIdx.Pairwise fun first second => first.2 ≠ second.2 := by
    have distinct : (List.range' 0 table.slots.toList.length).Nodup := List.nodup_range' _
    rw [← List.zipIdx_map_snd, List.Nodup, List.pairwise_map] at distinct
    exact distinct
  refine List.pairwise_filterMap.mpr (indices.imp ?_)
  intro first second different entry found entry' found'
  obtain ⟨_, _, rfl⟩ := Option.map_eq_some_iff.mp found
  obtain ⟨_, _, rfl⟩ := Option.map_eq_some_iff.mp found'
  simpa using different

end NodeTable

end Pins
