import Pins.NodeTable
import Pins.Proofs.Forest
import Pins.Proofs.Runs

/-!
# Passes over the intervals of a tree

A pass that visits a subtree writes its tables at the numbers of that subtree only, so visits of
subtrees that stand one behind the other do not get in each other's way. `NodeTable.Fills` says what
a table holds on an interval behind a visit and that it is untouched elsewhere. A `Sweep` is any
such description of states that can be put together from neighbouring intervals; for it, visiting
the members of a forest one by one does on the whole forest what each visit does on its subtree.
-/

namespace Pins

namespace NodeTable

variable {α : Type} {first middle last : Nat} {fits : NodeId → Option α → Prop}
  {before between after : NodeTable α}

/-- The nodes of an interval have no value. -/
def Unset (table : NodeTable α) (first last : Nat) : Prop :=
  ∀ id : NodeId, first ≤ id.index → id.index < last → table.get? id = none

/-- A table is changed in an interval only, and there what it holds fits each node. -/
structure Fills (first last : Nat) (fits : NodeId → Option α → Prop)
    (before after : NodeTable α) : Prop where
  /-- Outside the interval nothing changes. -/
  outside : ∀ id : NodeId, id.index < first ∨ last ≤ id.index → after.get? id = before.get? id
  /-- Inside the interval every value or gap fits its node. -/
  inside : ∀ id : NodeId, first ≤ id.index → id.index < last → fits id (after.get? id)

theorem unset_empty : (empty : NodeTable α).Unset first last := fun id _ _ => get?_empty id

/-- A part of an interval without values has no values. -/
theorem Unset.mono {start stop : Nat} (h : before.Unset first last) (hs : first ≤ start)
    (ht : stop ≤ last) : before.Unset start stop :=
  fun id hf hl => h id (by omega) (by omega)

/-- Filling an interval leaves those behind it without values. -/
theorem Unset.behind {stop : Nat} (h : before.Unset last stop)
    (hf : Fills first last fits before after) : after.Unset last stop :=
  fun id hl hs => (hf.outside id (Or.inr hl)).trans (h id hl hs)

/-- Filling an interval leaves those in front of it without values. -/
theorem Unset.front {start : Nat} (h : before.Unset start first)
    (hf : Fills first last fits before after) : after.Unset start first :=
  fun id hl hs => (hf.outside id (Or.inl hs)).trans (h id hl hs)

/-- An empty interval is filled by doing nothing. -/
theorem Fills.refl (table : NodeTable α) : Fills first first fits table table :=
  ⟨fun _ _ => rfl, fun id hf hl => by omega⟩

/-- An interval of nodes that need no value is filled by doing nothing. -/
theorem Fills.skip (hu : before.Unset first last)
    (hn : ∀ id : NodeId, first ≤ id.index → id.index < last → fits id none) :
    Fills first last fits before before :=
  ⟨fun _ _ => rfl, fun id hf hl => by rw [hu id hf hl]; exact hn id hf hl⟩

/-- Two neighbouring intervals are filled one behind the other. -/
theorem Fills.trans (hl : first ≤ middle) (hr : middle ≤ last)
    (hf : Fills first middle fits before between) (hs : Fills middle last fits between after) :
    Fills first last fits before after := by
  constructor
  · intro id ho
    exact (hs.outside id (by omega)).trans (hf.outside id (by omega))
  · intro id hi ht
    by_cases hm : id.index < middle
    · rw [hs.outside id (Or.inl hm)]
      exact hf.inside id hi hm
    · exact hs.inside id (by omega) ht

/-- Two neighbouring intervals are filled, the second one first. -/
theorem Fills.trans_back (hl : first ≤ middle) (hr : middle ≤ last)
    (hf : Fills middle last fits before between) (hs : Fills first middle fits between after) :
    Fills first last fits before after := by
  constructor
  · intro id ho
    exact (hs.outside id (by omega)).trans (hf.outside id (by omega))
  · intro id hi ht
    by_cases hm : id.index < middle
    · exact hs.inside id hi hm
    · rw [hs.outside id (by omega)]
      exact hf.inside id (by omega) ht

/-- A node that has no value can be given one. -/
theorem exists_store? {id : NodeId} (value : α) (hn : before.get? id = none) :
    ∃ after, before.store? id value = some after := by
  cases hs : before.store? id value with
  | some after => exact ⟨after, rfl⟩
  | none =>
    have hkept := (store?_eq_none_iff before id value).mp hs
    simp [hn] at hkept

/-- Storing fills the interval of one node. -/
theorem Fills.store {id : NodeId} {value : α} (hs : before.store? id value = some after)
    (hv : fits id (some value)) : Fills id.index (id.index + 1) fits before after := by
  constructor
  · intro other ho
    have hd : other ≠ id := by rintro rfl; omega
    rw [get?_store? hs, if_neg hd]
  · intro other hf hl
    obtain rfl : other = id := NodeId.eq_of_index (by omega)
    rw [get?_store? hs, if_pos rfl]
    exact hv

/-- A table that was filled from the first number on holds what fits any node, if no value fits the
nodes behind. -/
theorem Fills.everywhere (h : Fills 0 last fits empty after)
    (hn : ∀ id : NodeId, last ≤ id.index → fits id none) (id : NodeId) :
    fits id (after.get? id) := by
  rcases Nat.lt_or_ge id.index last with hlt | hge
  · exact h.inside id (Nat.zero_le _) hlt
  · rw [h.outside id (.inr hge), get?_empty]
    exact hn id hge

end NodeTable

/-- What visits of an interval need and do, when that can be put together from the parts of the
interval. -/
structure Sweep (σ : Type) where
  /-- The state in which an interval can be visited. -/
  ready : Nat → Nat → σ → Prop
  /-- What a visit of an interval makes of a state. -/
  done : Nat → Nat → σ → σ → Prop
  /-- Nothing happens on an empty interval. -/
  refl : ∀ first state, done first first state state
  /-- Visits of neighbouring intervals are a visit of both. -/
  trans : ∀ {first middle last before between after}, first ≤ middle → middle ≤ last →
    done first middle before between → done middle last between after →
    done first last before after
  /-- A state that is ready for an interval is ready for its beginning. -/
  ready_front : ∀ {first middle last state}, first ≤ middle → middle ≤ last →
    ready first last state → ready first middle state
  /-- Behind a visit of its beginning, a state is ready for the rest of an interval. -/
  ready_behind : ∀ {first middle last before after}, first ≤ middle → middle ≤ last →
    ready first last before → done first middle before after → ready middle last after

namespace Sweep

variable {σ α : Type} (sweep : Sweep σ) {arena : Arena} {allowed : Diagnostic → Prop}
  {first last : Nat} {places : List (Place × NodeId)} {state : σ}

/-- From every ready state, a step visits the subtree of a node. -/
def Visits (arena : Arena) (allowed : Diagnostic → Prop) (step : NodeId → Pass σ α)
    (place : Place) (id : NodeId) : Prop :=
  ∀ start, arena.Subtree place start id → ∀ state, sweep.ready start (id.index + 1) state →
    (step id).Runs allowed state fun _ after => sweep.done start (id.index + 1) state after

/-- Visiting the members of a forest visits the forest. -/
theorem runs_forM {step : NodeId → Pass σ PUnit} (h : arena.Forest first places last)
    (hv : ∀ place id, (place, id) ∈ places → sweep.Visits arena allowed step place id)
    (hr : sweep.ready first last state) :
    Pass.Runs allowed ((places.map Prod.snd).forM step) state fun _ after =>
      sweep.done first last state after := by
  induction places generalizing first state with
  | nil =>
    obtain rfl := Arena.forest_nil_iff.mp h
    simpa using sweep.refl first state
  | cons head others ih =>
    rcases head with ⟨place, id⟩
    obtain ⟨hs, ho⟩ := Arena.forest_cons_iff.mp h
    have hle := hs.le
    have hlast := ho.le
    simp only [List.map_cons, List.forM_eq_forM, List.forM_cons, Pass.runs_bind] at ih ⊢
    have hfirst := hv place id List.mem_cons_self first hs state
      (sweep.ready_front (by omega) hlast hr)
    refine hfirst.mono fun _ between hd => ?_
    have hrest := ih ho (fun place id hm => hv place id (List.mem_cons_of_mem _ hm))
      (sweep.ready_behind (by omega) hlast hr hd)
    exact hrest.mono fun _ after ha => sweep.trans (by omega) hlast hd ha

/-- Visiting the members of a forest for their values visits the forest. -/
theorem runs_mapM {step : NodeId → Pass σ α} (h : arena.Forest first places last)
    (hv : ∀ place id, (place, id) ∈ places → sweep.Visits arena allowed step place id)
    (hr : sweep.ready first last state) :
    Pass.Runs allowed ((places.map Prod.snd).mapM step) state fun _ after =>
      sweep.done first last state after := by
  induction places generalizing first state with
  | nil =>
    obtain rfl := Arena.forest_nil_iff.mp h
    simpa using sweep.refl first state
  | cons head others ih =>
    rcases head with ⟨place, id⟩
    obtain ⟨hs, ho⟩ := Arena.forest_cons_iff.mp h
    have hle := hs.le
    have hlast := ho.le
    simp only [List.map_cons, List.mapM_cons, Pass.runs_bind, Pass.runs_pure]
    have hfirst := hv place id List.mem_cons_self first hs state
      (sweep.ready_front (by omega) hlast hr)
    refine hfirst.mono fun _ between hd => ?_
    have hrest := ih ho (fun place id hm => hv place id (List.mem_cons_of_mem _ hm))
      (sweep.ready_behind (by omega) hlast hr hd)
    exact hrest.mono fun _ after ha => sweep.trans (by omega) hlast hd ha

end Sweep

end Pins
