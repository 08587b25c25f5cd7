import Mathlib.Logic.Equiv.Defs
import Pins.Proofs.Relabelled

/-!
# Steps in any order

A pass takes one step for each member of a list. Each step keeps something for nodes of its own,
draws labels and emits chunks, and it does the same from any state in which its nodes have nothing
yet, with other numbers for labels (`Repeats`). Two such steps one behind the other may change
places: the labels of the one become those of the other, in two blocks that change places as well
(`swapBlocks`). So the steps may be taken in any order (`Rearranges.forM`): what is kept is the
same under a permutation of the numbers of labels, and the chunks are the same in another order.
-/

namespace Pins

/-- Two blocks of numbers, one behind the other, change places. -/
def swapBlocks (start first second : Nat) : Equiv.Perm Nat where
  toFun number :=
    if number < start then number
    else if number < start + first then number + second
    else if number < start + first + second then number - first
    else number
  invFun number :=
    if number < start then number
    else if number < start + second then number + first
    else if number < start + second + first then number - second
    else number
  left_inv number := by grind
  right_inv number := by grind

section

variable {start first second number : Nat}

theorem swapBlocks_of_first (hl : start ≤ number) (hr : number < start + first) :
    swapBlocks start first second number = number + second := by
  simp only [swapBlocks, Equiv.coe_fn_mk]
  rw [if_neg (by omega), if_pos hr]

theorem swapBlocks_of_second (hl : start + first ≤ number) (hr : number < start + first + second) :
    swapBlocks start first second number + first = number := by
  simp only [swapBlocks, Equiv.coe_fn_mk]
  rw [if_neg (by omega), if_neg (by omega), if_pos hr]
  omega

theorem swapBlocks_of_outside (h : number < start ∨ start + first + second ≤ number) :
    swapBlocks start first second number = number := by
  simp only [swapBlocks, Equiv.coe_fn_mk]
  grind

end

namespace Pass

variable {σ κ ι α β : Type}

/-- A run of two passes is a run of the second one behind a run of the first one. -/
theorem bind_eq_ok_iff {pass : Pass σ α} {next : α → Pass σ β} {state after : σ} {value : β} :
    (pass >>= next) state = .ok value after ↔
      ∃ found between, pass state = .ok found between ∧ next found between = .ok value after := by
  change EStateM.bind pass next state = .ok value after ↔ _
  rw [EStateM.bind]
  cases pass state with
  | ok found between =>
    constructor
    · exact fun h => ⟨found, between, rfl, h⟩
    · rintro ⟨_, _, h, hn⟩
      cases h
      exact hn
  | error diagnostic between => simp

/-- What is seen of the states of a pass that draws labels. -/
structure View (σ κ : Type) where
  /-- The number of the next label. -/
  next : σ → Nat
  /-- What is kept for a node. -/
  kept : σ → NodeId → κ
  /-- The chunks that were emitted. -/
  chunks : σ → List Chunk
  /-- What is kept for a node if nothing is. -/
  blank : κ
  /-- What is kept, with other numbers for labels. -/
  relabel : (Nat → Nat) → κ → κ
  /-- Where nothing is kept, there is no label. -/
  relabel_blank : ∀ renumber, relabel renumber blank = blank
  /-- Numbers may be replaced twice. -/
  relabel_relabel : ∀ first second value,
    relabel second (relabel first value) = relabel (second ∘ first) value

namespace View

variable (view : View σ κ) {renumber renumber' : Nat → Nat} {known known' : NodeId → Prop}
  {before before' between between' after after' : σ}

/-- Nothing is kept for the known nodes. -/
def Fresh (known : NodeId → Prop) (state : σ) : Prop :=
  ∀ id, known id → view.kept state id = view.blank

/-- Two runs did the same, with other numbers for labels and in another order: one from `before` to
`after`, the other one from `before'` to `after'`. -/
structure Mirrored (renumber : Nat → Nat) (known : NodeId → Prop)
    (before before' after after' : σ) : Prop where
  /-- The same is kept for the known nodes. -/
  inside : ∀ id, known id → view.kept after' id = view.relabel renumber (view.kept after id)
  /-- The first run changes nothing else. -/
  outside : ∀ id, ¬ known id → view.kept after id = view.kept before id
  /-- The second run changes nothing else. -/
  outside' : ∀ id, ¬ known id → view.kept after' id = view.kept before' id
  /-- The same chunks are emitted. -/
  chunks : ∃ added added', view.chunks after = view.chunks before ++ added ∧
    view.chunks after' = view.chunks before' ++ added' ∧
    added'.Perm (added.map (Chunk.relabel renumber))

variable {view}

/-- Nothing is kept for two groups of nodes. -/
theorem fresh_or_iff {state : σ} : view.Fresh (fun id => known id ∨ known' id) state ↔
    view.Fresh known state ∧ view.Fresh known' state := by
  simp only [Fresh, or_imp, forall_and]

/-- Where nothing was kept before, all that is kept is the same. -/
theorem Mirrored.kept_eq (h : view.Mirrored renumber known before before' after after')
    (hb : ∀ id, view.kept before id = view.blank) (hb' : ∀ id, view.kept before' id = view.blank)
    (id : NodeId) : view.kept after' id = view.relabel renumber (view.kept after id) := by
  by_cases hid : known id
  · exact h.inside id hid
  · rw [h.outside' id hid, h.outside id hid, hb id, hb' id, view.relabel_blank]

/-- Runs that do the same for other nodes follow on each other. -/
theorem Mirrored.append (hd : ∀ id, known id → ¬ known' id)
    (h : view.Mirrored renumber known before before' between between')
    (h' : view.Mirrored renumber known' between between' after after') :
    view.Mirrored renumber (fun id => known id ∨ known' id) before before' after after' where
  inside := by
    rintro id (hid | hid)
    · rw [h'.outside' id (hd id hid), h'.outside id (hd id hid), h.inside id hid]
    · exact h'.inside id hid
  outside id hid := by
    rw [not_or] at hid
    rw [h'.outside id hid.2, h.outside id hid.1]
  outside' id hid := by
    rw [not_or] at hid
    rw [h'.outside' id hid.2, h.outside' id hid.1]
  chunks := by
    obtain ⟨front, front', hf, hf', hfront⟩ := h.chunks
    obtain ⟨behind, behind', hb, hb', hbehind⟩ := h'.chunks
    refine ⟨front ++ behind, front' ++ behind', ?_, ?_, ?_⟩
    · rw [hb, hf, List.append_assoc]
    · rw [hb', hf', List.append_assoc]
    · rw [List.map_append]
      exact hfront.append hbehind

/-- Where the second run takes two steps the other way round, it does what the first one does. -/
theorem Mirrored.interchange (hd : ∀ id, known id → ¬ known' id)
    (h : view.Mirrored renumber known before between' between after')
    (h' : view.Mirrored renumber known' between before after between') :
    view.Mirrored renumber (fun id => known id ∨ known' id) before before after after' where
  inside := by
    rintro id (hid | hid)
    · rw [h.inside id hid, h'.outside id (hd id hid)]
    · rw [h.outside' id fun hknown => hd id hknown hid, h'.inside id hid]
  outside id hid := by
    rw [not_or] at hid
    rw [h'.outside id hid.2, h.outside id hid.1]
  outside' id hid := by
    rw [not_or] at hid
    rw [h.outside' id hid.1, h'.outside' id hid.2]
  chunks := by
    obtain ⟨front, front', hf, hf', hfront⟩ := h.chunks
    obtain ⟨behind, behind', hb, hb', hbehind⟩ := h'.chunks
    refine ⟨front ++ behind, behind' ++ front', ?_, ?_, ?_⟩
    · rw [hb, hf, List.append_assoc]
    · rw [hf', hb', List.append_assoc]
    · rw [List.map_append]
      exact List.perm_append_comm.trans (hfront.append hbehind)

/-- A third run that does what the second one does also does what the first one does. -/
theorem Mirrored.trans {last : σ} (h : view.Mirrored renumber known before before after after')
    (h' : view.Mirrored renumber' known before before after' last) :
    view.Mirrored (renumber' ∘ renumber) known before before after last where
  inside id hid := by rw [h'.inside id hid, h.inside id hid, view.relabel_relabel]
  outside := h.outside
  outside' := h'.outside'
  chunks := by
    obtain ⟨added, middle, ha, hm, hp⟩ := h.chunks
    obtain ⟨middle', last, hm', hl, hp'⟩ := h'.chunks
    obtain rfl : middle' = middle := List.append_cancel_left (hm'.symm.trans hm)
    refine ⟨added, last, ha, hl, hp'.trans ?_⟩
    have hboth : added.map (Chunk.relabel (renumber' ∘ renumber)) =
        (added.map (Chunk.relabel renumber)).map (Chunk.relabel renumber') := by
      rw [List.map_map]
      exact List.map_congr_left fun chunk _ => (chunk.relabel_relabel renumber renumber').symm
    rw [hboth]
    exact hp.map _

end View

/-- A step does the same from all states in which nothing is kept for its nodes: it only depends on
the numbers of the labels that it draws. Labels below a `floor` have their numbers for good. -/
structure Repeats (view : View σ κ) (floor : Nat) (base : σ → Prop) (known : NodeId → Prop)
    (step : Pass σ PUnit) : Prop where
  /-- Steps may follow on each other, and they draw labels one by one. -/
  keeps : ∀ {state after}, base state → step state = .ok ⟨⟩ after →
    base after ∧ view.next state ≤ view.next after
  /-- A step that is taken from another state draws as many labels and does the same. -/
  again : ∀ {state state' after} (renumber : Nat → Nat), base state → base state' →
    view.Fresh known state → view.Fresh known state' →
    (∀ number < floor, renumber number = number) → step state = .ok ⟨⟩ after →
    (∀ number, view.next state ≤ number → number < view.next after →
      renumber number + view.next state = number + view.next state') →
    ∃ after', step state' = .ok ⟨⟩ after' ∧
      view.next after' + view.next state = view.next after + view.next state' ∧
      view.Mirrored renumber known state state' after after'

namespace Repeats

variable {view : View σ κ} {floor : Nat} {base : σ → Prop} {known known' : NodeId → Prop}
  {step step' : Pass σ PUnit} {state after : σ}

/-- From one state, a step does what it does. -/
theorem self (h : Repeats view floor base known step) (hb : base state)
    (hfresh : view.Fresh known state) (hs : step state = .ok ⟨⟩ after) (renumber : Nat → Nat)
    (hfloor : ∀ number < floor, renumber number = number)
    (hr : ∀ number, view.next state ≤ number → number < view.next after →
      renumber number = number) : view.Mirrored renumber known state state after after := by
  obtain ⟨after', hs', -, hm⟩ := h.again renumber hb hb hfresh hfresh hfloor hs
    fun number hf hl => by rw [hr number hf hl]
  cases hs.symm.trans hs'
  exact hm

/-- A step leaves other nodes alone. -/
theorem fresh (h : Repeats view floor base known step) (hd : ∀ id, known id → ¬ known' id)
    (hb : base state) (hfresh : view.Fresh known state) (hfresh' : view.Fresh known' state)
    (hs : step state = .ok ⟨⟩ after) : view.Fresh known' after := by
  intro id hid
  rw [(h.self hb hfresh hs (fun number => number) (fun _ _ => rfl) fun _ _ _ => rfl).outside id
    fun hknown => hd id hknown hid, hfresh' id hid]

/-- Nothing is done again by doing nothing. -/
theorem pure : Repeats view floor base (fun _ => False) (pure ⟨⟩) where
  keeps hb hs := by
    cases hs
    exact ⟨hb, Nat.le_refl _⟩
  again {state state' after} renumber _ _ _ _ _ hs _ := by
    cases hs
    exact ⟨state', rfl, Nat.add_comm _ _, fun _ hid => hid.elim, fun _ _ => rfl, fun _ _ => rfl,
      [], [], (List.append_nil _).symm, (List.append_nil _).symm, .nil⟩

/-- Two steps for different nodes are one for all these nodes. -/
theorem bind (h : Repeats view floor base known step) (h' : Repeats view floor base known' step')
    (hd : ∀ id, known id → ¬ known' id) :
    Repeats view floor base (fun id => known id ∨ known' id) (step >>= fun _ => step') where
  keeps {state after} hb hs := by
    obtain ⟨_, between, hf, hl⟩ := bind_eq_ok_iff.mp hs
    obtain ⟨hbetween, hle⟩ := h.keeps hb hf
    obtain ⟨hafter, hle'⟩ := h'.keeps hbetween hl
    exact ⟨hafter, Nat.le_trans hle hle'⟩
  again {state state' after} renumber hb hb' hfresh hfresh' hfloor hs hr := by
    obtain ⟨_, between, hf, hl⟩ := bind_eq_ok_iff.mp hs
    obtain ⟨hbetween, hle⟩ := h.keeps hb hf
    obtain ⟨_, hle'⟩ := h'.keeps hbetween hl
    obtain ⟨hfirst, hsecond⟩ := View.fresh_or_iff.mp hfresh
    obtain ⟨hfirst', hsecond'⟩ := View.fresh_or_iff.mp hfresh'
    obtain ⟨between', hf', hpace, hm⟩ := h.again renumber hb hb' hfirst hfirst' hfloor hf
      fun number hstart hstop => hr number hstart (by omega)
    obtain ⟨hbetween', _⟩ := h.keeps hb' hf'
    obtain ⟨after', hl', hpace', hm'⟩ := h'.again renumber hbetween hbetween'
      (h.fresh hd hb hfirst hsecond hf) (h.fresh hd hb' hfirst' hsecond' hf') hfloor hl
      fun number hstart hstop => by
        have hshift := hr number (by omega) hstop
        omega
    exact ⟨after', bind_eq_ok_iff.mpr ⟨_, between', hf', hl'⟩, by omega, hm.append hd hm'⟩

end Repeats

/-- Steps for some nodes are taken in another order: from a state, the second way does what the
first one does, under a permutation of the numbers of the labels that are drawn. -/
def Rearranges (view : View σ κ) (floor : Nat) (base : σ → Prop) (known : NodeId → Prop)
    (step step' : Pass σ PUnit) : Prop :=
  ∀ ⦃state after⦄, base state → floor ≤ view.next state → view.Fresh known state →
    step state = .ok ⟨⟩ after → ∃ (renumber : Equiv.Perm Nat) (after' : σ),
      step' state = .ok ⟨⟩ after' ∧ base after' ∧ view.next after' = view.next after ∧
      (∀ number, number < view.next state ∨ view.next after ≤ number → renumber number = number) ∧
      view.Mirrored renumber known state state after after'

namespace Rearranges

variable {view : View σ κ} {floor : Nat} {base : σ → Prop} {known known' : NodeId → Prop}
  {step step' other last : Pass σ PUnit}

/-- A step may stay where it is. -/
theorem refl (h : Repeats view floor base known step) :
    Rearranges view floor base known step step := by
  intro state after hb _ hfresh hs
  exact ⟨.refl Nat, after, hs, (h.keeps hb hs).1, rfl, fun _ _ => rfl,
    h.self hb hfresh hs _ (fun _ _ => rfl) fun _ _ _ => rfl⟩

/-- An order may be changed twice. -/
theorem trans (h : Rearranges view floor base known step step')
    (h' : Rearranges view floor base known step' last) :
    Rearranges view floor base known step last := by
  intro state after hb hfloor hfresh hs
  obtain ⟨renumber, after', hs', _, hnext, hfixed, hm⟩ := h hb hfloor hfresh hs
  obtain ⟨renumber', after'', hs'', hb'', hnext', hfixed', hm'⟩ := h' hb hfloor hfresh hs'
  refine ⟨renumber.trans renumber', after'', hs'', hb'', hnext'.trans hnext, fun number ho => ?_,
    hm.trans hm'⟩
  rw [Equiv.trans_apply, hfixed number ho, hfixed' number (hnext ▸ ho)]

/-- What comes behind a step may be done in another order. -/
theorem bind_left (hd : ∀ id, known id → ¬ known' id) (h : Repeats view floor base known step)
    (h' : Rearranges view floor base known' other last) :
    Rearranges view floor base (fun id => known id ∨ known' id) (step >>= fun _ => other)
      (step >>= fun _ => last) := by
  intro state after hb hfloor hfresh hs
  obtain ⟨_, between, hf, hl⟩ := bind_eq_ok_iff.mp hs
  obtain ⟨hbetween, hle⟩ := h.keeps hb hf
  obtain ⟨hfirst, hsecond⟩ := View.fresh_or_iff.mp hfresh
  obtain ⟨renumber, after', hl', hb', hnext, hfixed, hm⟩ :=
    h' hbetween (Nat.le_trans hfloor hle) (h.fresh hd hb hfirst hsecond hf) hl
  refine ⟨renumber, after', bind_eq_ok_iff.mpr ⟨_, between, hf, hl'⟩, hb', hnext,
    fun number ho => hfixed number (by omega), ?_⟩
  have hself := h.self hb hfirst hf renumber (fun number hn => hfixed number (by omega))
    fun number _ hn => hfixed number (.inl hn)
  exact hself.append hd hm

/-- What comes before a step may be done in another order. -/
theorem bind_right (hd : ∀ id, known id → ¬ known' id)
    (hk : ∀ {state after}, base state → step state = .ok ⟨⟩ after →
      base after ∧ view.next state ≤ view.next after)
    (h : Rearranges view floor base known step step')
    (h' : Repeats view floor base known' other) :
    Rearranges view floor base (fun id => known id ∨ known' id) (step >>= fun _ => other)
      (step' >>= fun _ => other) := by
  intro state after hb hfloor hfresh hs
  obtain ⟨_, between, hf, hl⟩ := bind_eq_ok_iff.mp hs
  obtain ⟨hbetween, hle⟩ := hk hb hf
  obtain ⟨_, hle'⟩ := h'.keeps hbetween hl
  obtain ⟨hfirst, hsecond⟩ := View.fresh_or_iff.mp hfresh
  obtain ⟨renumber, between', hf', hbetween', hnext, hfixed, hm⟩ := h hb hfloor hfirst hf
  have hrest : view.Fresh known' between := fun id hid => by
    rw [hm.outside id fun hknown => hd id hknown hid, hsecond id hid]
  have hrest' : view.Fresh known' between' := fun id hid => by
    rw [hm.outside' id fun hknown => hd id hknown hid, hsecond id hid]
  obtain ⟨after', hl', hpace, hm'⟩ := h'.again renumber hbetween hbetween' hrest hrest'
    (fun number hn => hfixed number (by omega)) hl
    fun number hstart _ => by rw [hfixed number (.inr hstart), hnext]
  refine ⟨renumber, after', bind_eq_ok_iff.mpr ⟨_, between', hf', hl'⟩,
    (h'.keeps hbetween' hl').1, by omega, fun number ho => hfixed number (by omega), ?_⟩
  exact hm.append hd hm'

/-- Two steps for different nodes may change places: so do the labels that they draw. -/
theorem interchange (hd : ∀ id, known id → ¬ known' id) (h : Repeats view floor base known step)
    (h' : Repeats view floor base known' step') :
    Rearranges view floor base (fun id => known id ∨ known' id) (step >>= fun _ => step')
      (step' >>= fun _ => step) := by
  intro state after hb hfloor hfresh hs
  obtain ⟨_, between, hf, hl⟩ := bind_eq_ok_iff.mp hs
  obtain ⟨hbetween, hle⟩ := h.keeps hb hf
  obtain ⟨_, hle'⟩ := h'.keeps hbetween hl
  obtain ⟨hfirst, hsecond⟩ := View.fresh_or_iff.mp hfresh
  -- the labels of the first step, and then those of the second one
  obtain ⟨first, hfirstNext⟩ := Nat.exists_eq_add_of_le hle
  obtain ⟨second, hsecondNext⟩ := Nat.exists_eq_add_of_le hle'
  let renumber := swapBlocks (view.next state) first second
  have hfixed : ∀ number, number < view.next state ∨ view.next after ≤ number →
      renumber number = number := fun number ho => swapBlocks_of_outside (by omega)
  have hrenumber : ∀ number < floor, renumber number = number :=
    fun number hn => hfixed number (by omega)
  obtain ⟨between', hl', hpace, hm'⟩ := h'.again renumber hbetween hb
    (h.fresh hd hb hfirst hsecond hf) hsecond hrenumber hl fun number hstart hstop => by
      have hmoved : renumber number + first = number :=
        swapBlocks_of_second (by omega) (by omega)
      omega
  obtain ⟨hbetween', _⟩ := h'.keeps hb hl'
  have hrest : view.Fresh known between' :=
    h'.fresh (fun id hid hknown => hd id hknown hid) hb hsecond hfirst hl'
  obtain ⟨after', hf', hpace', hm⟩ := h.again renumber hb hbetween' hfirst hrest hrenumber hf
    fun number hstart hstop => by
      have hmoved : renumber number = number + second := swapBlocks_of_first hstart (by omega)
      omega
  exact ⟨renumber, after', bind_eq_ok_iff.mpr ⟨_, between', hl', hf'⟩, (h.keeps hbetween' hf').1,
    by omega, hfixed, hm.interchange hd hm'⟩

/-- Two orders of some steps end with values from the same states. -/
theorem sameSuccess {state : σ} (h : Rearranges view floor base known step step')
    (hback : Rearranges view floor base known' step' step) (hb : base state)
    (hfloor : floor ≤ view.next state) (hfresh : view.Fresh known state)
    (hfresh' : view.Fresh known' state) :
    SameSuccess (fun after after' => ∃ renumber : Equiv.Perm Nat,
        view.next after' = view.next after ∧
          (∀ number, number < view.next state ∨ view.next after ≤ number →
            renumber number = number) ∧
          view.Mirrored renumber known state state after after')
      (Pass.finalState step state) (Pass.finalState step' state) := by
  unfold Pass.finalState
  cases hs : step state with
  | ok _ after =>
    obtain ⟨renumber, after', hs', _, hnext, hfixed, hm⟩ := h hb hfloor hfresh hs
    rw [hs']
    exact ⟨renumber, hnext, hfixed, hm⟩
  | error diagnostic after =>
    cases hs' : step' state with
    | ok _ after' =>
      obtain ⟨_, _, hstep, _⟩ := hback hb hfloor hfresh' hs'
      cases hs.symm.trans hstep
    | error found after' => trivial

end Rearranges

section Members

variable {view : View σ κ} {floor : Nat} {base : σ → Prop} {inside : ι → NodeId → Prop}
  {step : ι → Pass σ PUnit} {members members' : List ι} {state after : σ}

/-- The nodes of some members. -/
def Inside (inside : ι → NodeId → Prop) (members : List ι) (id : NodeId) : Prop :=
  ∃ member ∈ members, inside member id

/-- No node belongs to two members. -/
def Apart (inside : ι → NodeId → Prop) (members : List ι) : Prop :=
  members.Pairwise fun member other => ∀ id, inside member id → ¬ inside other id

theorem inside_cons_iff {member : ι} {id : NodeId} :
    Inside inside (member :: members) id ↔ inside member id ∨ Inside inside members id := by
  simp [Inside]

theorem or_inside_eq (inside : ι → NodeId → Prop) (member : ι) (members : List ι) :
    (fun id => inside member id ∨ Inside inside members id) = Inside inside (member :: members) :=
  funext fun _ => propext inside_cons_iff.symm

theorem Inside.perm (hp : members.Perm members') : Inside inside members' = Inside inside members :=
  funext fun id => propext (by simp only [Inside, hp.mem_iff])

theorem Apart.perm (h : Apart inside members) (hp : members.Perm members') :
    Apart inside members' :=
  List.Pairwise.perm h hp fun hd id hid hother => hd id hother hid

theorem Apart.cons_iff {member : ι} : Apart inside (member :: members) ↔
    (∀ id, inside member id → ¬ Inside inside members id) ∧ Apart inside members := by
  rw [Apart, List.pairwise_cons]
  refine and_congr_left fun _ => ⟨fun h id hid => ?_, fun h other ho id hid hother => ?_⟩
  · rintro ⟨other, ho, hother⟩
    exact h other ho id hid hother
  · exact h id hid ⟨other, ho, hother⟩

/-- Steps for all members of a list are one step for all their nodes. -/
theorem Repeats.forM (hd : Apart inside members)
    (h : ∀ member ∈ members, Repeats view floor base (inside member) (step member)) :
    Repeats view floor base (Inside inside members) (members.forM step) := by
  induction members with
  | nil =>
    have hnone : (fun _ => False) = Inside inside ([] : List ι) := by
      funext id
      simp [Inside]
    exact hnone ▸ .pure
  | cons member others ih =>
    obtain ⟨hmember, hothers⟩ := Apart.cons_iff.mp hd
    rw [← or_inside_eq]
    exact (h member List.mem_cons_self).bind
      (ih hothers fun other ho => h other (List.mem_cons_of_mem _ ho)) hmember

/-- Steps for the members of a list may be taken in any order. -/
theorem Rearranges.forM (hp : members.Perm members') (hd : Apart inside members)
    (h : ∀ member ∈ members, Repeats view floor base (inside member) (step member)) :
    Rearranges view floor base (Inside inside members) (members.forM step)
      (members'.forM step) := by
  induction hp with
  | nil => exact .refl (.forM hd h)
  | @cons member others others' hp ih =>
    obtain ⟨hmember, hothers⟩ := Apart.cons_iff.mp hd
    rw [← or_inside_eq]
    exact .bind_left hmember (h member List.mem_cons_self)
      (ih hothers fun other ho => h other (List.mem_cons_of_mem _ ho))
  | swap first second others =>
    obtain ⟨hsecond, hrest⟩ := Apart.cons_iff.mp hd
    obtain ⟨hfirst, hothers⟩ := Apart.cons_iff.mp hrest
    have hf := h first (by simp)
    have hs := h second (by simp)
    have ho : Repeats view floor base (Inside inside others) (others.forM step) :=
      .forM hothers fun other ho => h other (by simp [ho])
    have hapart : ∀ id, inside second id → ¬ inside first id :=
      fun id hid hother => hsecond id hid (inside_cons_iff.mpr (.inl hother))
    have hall : (fun id => (inside second id ∨ inside first id) ∨ Inside inside others id) =
        Inside inside (second :: first :: others) := by
      rw [← or_inside_eq, ← or_inside_eq]
      exact funext fun id => propext or_assoc
    rw [← hall]
    have hboth : ∀ id, inside second id ∨ inside first id → ¬ Inside inside others id := by
      rintro id (hid | hid) hother
      · exact hsecond id hid (inside_cons_iff.mpr (.inr hother))
      · exact hfirst id hid hother
    have hrun : Rearranges view floor base
        (fun id => (inside second id ∨ inside first id) ∨ Inside inside others id)
        ((step second >>= fun _ => step first) >>= fun _ => others.forM step)
        ((step first >>= fun _ => step second) >>= fun _ => others.forM step) :=
      .bind_right hboth (hs.bind hf hapart).keeps (.interchange hapart hs hf) ho
    rwa [bind_assoc, bind_assoc] at hrun
  | @trans members between members' hf _ ihf ihl =>
    have hl := ihl (hd.perm hf) fun member hm => h member (hf.mem_iff.mpr hm)
    exact (ihf hd h).trans (Inside.perm hf ▸ hl)

end Members

end Pass

end Pins
