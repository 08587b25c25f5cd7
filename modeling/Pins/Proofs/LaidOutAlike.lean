import Pins.Layout
import Pins.Proofs.Alike
import Pins.Proofs.Relabelled

/-!
# Laying out alike arenas

A run of layout over one of two alike arenas places values as the run over the other one does: the
same values at the same offsets, in frames that differ in their labels at most. The labels of nested
functions are generated and only renumbered. Outside all functions labels are names, so functions
and variables have to keep theirs there (`visitDefinition_follows`); what stands in a function may
be renamed at will (`visitWithin_follows`).
-/

namespace Pins.Layout

/-- How the layouts of two runs are compared. -/
structure Pairing where
  /-- The numbers that the labels of the first run have in the second one. -/
  renumbering : Renumbering
  /-- The nodes that are visited. -/
  known : NodeId → Prop
  /-- The nodes whose accesses are compared. -/
  settled : NodeId → Prop
  /-- The layout from which the first run is compared. -/
  first : Layout
  /-- The layout from which the second run is compared. -/
  first' : Layout

namespace Pairing

variable (p : Pairing)

/-- Two frames are the same but for the number of their label. -/
def Frames (_ : NodeId) (frame frame' : Frame) : Prop :=
  frame' = frame.relabel p.renumbering.renumber

/-- Two accesses of a node are the same if they are compared. -/
def Accesses (id : NodeId) (access access' : Access) : Prop :=
  p.settled id → access' = access.relabel p.renumbering.renumber

/-- The second state is what the first one is, with other numbers for labels. -/
structure Related (lowest : Nat) (state state' : State) : Prop where
  /-- As many labels were drawn. -/
  labels : Supplies p.renumbering state.labels state'.labels
  /-- The visit is at the same level. -/
  level : state'.level = state.level
  /-- It is inside of some functions. -/
  lowest : lowest ≤ state.level
  /-- The open frames are the same. -/
  drafts : state'.drafts = state.drafts.map (FrameDraft.relabel p.renumbering.renumber)
  /-- The frames that were built are the same. -/
  frames : NodeTable.Mirrors p.known p.Frames p.first.frames p.first'.frames state.layout.frames
    state'.layout.frames
  /-- The accesses that were found are the same. -/
  accesses : NodeTable.Mirrors p.known p.Accesses p.first.accesses p.first'.accesses
    state.layout.accesses state'.layout.accesses

/-- What two runs do side by side inside of some functions. -/
abbrev Same {α β : Type} (c : Pass.Comparison State) (lowest : Nat) (see : α → β) (step : LayOut α)
    (step' : LayOut β) : Prop :=
  Pass.Follows c (p.Related lowest) (p.Related lowest) see step step'

/-- Nothing is laid out yet, and labels keep their numbers. -/
abbrev same (known settled : NodeId → Prop) (limit : Nat) : Pairing :=
  ⟨.same limit, known, settled, .empty, .empty⟩

theorem related_initial (known settled : NodeId → Prop) (limit : Nat) (labels : LabelSupply) :
    (same known settled limit).Related 0 (.initial labels) (.initial labels) :=
  ⟨.same labels limit, rfl, Nat.le_refl 0, rfl, .empty, .empty⟩

namespace Related

variable {known settled : NodeId → Prop} {limit lowest : Nat} {state state' : State} {id : NodeId}

/-- If labels keep their numbers, the frames are the same. -/
theorem frames_eq (h : (same known settled limit).Related lowest state state') :
    state'.layout.frames = state.layout.frames :=
  h.frames.eq_of_empty fun _ frame _ he => he.trans (Frame.relabel_id frame)

/-- If labels keep their numbers, the accesses that are compared are the same. -/
theorem access_eq (h : (same known settled limit).Related lowest state state')
    (hs : known id → settled id) :
    state'.layout.accesses.get? id = state.layout.accesses.get? id := by
  rw [h.accesses.get?_eq_map fun hid access _ he =>
    (he (hs hid)).trans (Access.relabel_id access), Option.map_id']

/-- If labels keep their numbers and all accesses are compared, the layouts are the same. -/
theorem layout_eq (h : (same known settled limit).Related lowest state state')
    (hs : ∀ id, known id → settled id) : state'.layout = state.layout := by
  have haccesses : state'.layout.accesses = state.layout.accesses :=
    NodeTable.ext_get? fun id => h.access_eq (hs id)
  exact (congr (congrArg Layout.mk h.frames_eq) haccesses :)

end Related

end Pairing

variable {c : Pass.Comparison State} {arena arena' : Arena} {bindings : NodeTable NodeId}
  {types : NodeTable Ty} {names : NodeId → String} {p : Pairing} {id : NodeId} {lowest size : Nat}
  {name name' : String} {ids : List NodeId} {visit visit' : NodeId → LayOut Unit}

section Steps

variable (h : arena.Alike c names arena' p.known)
  (hw : ∀ state, c.within state ↔ state.labels.next ≤ p.renumbering.limit)

include h

theorem fail_follows {α β : Type} {before after : State → State → Prop} {see : α → β}
    {fault found : Fault} (hid : p.known id)
    (he : (∀ other, p.known other → arena'.kind? other = arena.kind? other) → found = fault) :
    Pass.Follows c before after see (fail arena id fault) (fail arena' id found) :=
  .throw (h.fault hid he)

theorem measured_follows {sizeOf? : Ty → Option Nat} (hid : p.known id) :
    p.Same c lowest (fun size => size) (measured arena types sizeOf? id)
      (measured arena' types sizeOf? id) := by
  unfold measured
  split
  · exact fail_follows h hid fun _ => rfl
  · split
    · exact .pure (fun size => size) _
    · exact fail_follows h hid fun _ => rfl

include hw

theorem recordAccess_follows {access access' : Access} (hid : p.known id)
    (ha : p.Accesses id access access') :
    p.Same c lowest (fun value => value) (recordAccess arena id access)
      (recordAccess arena' id access') := by
  refine ⟨fun state hstate => ?_, fun state state' hs hstate => ?_⟩
  · simp only [recordAccess, Pass.run_get_bind] at hstate
    cases hstored : state.layout.accesses.store? id access with
    | none =>
      rw [hstored] at hstate
      exact hstate
    | some accesses =>
      rw [hstored, hw] at hstate
      exact (hw state).mpr hstate
  · simp only [recordAccess, Pass.run_get_bind]
    cases hstored : state.layout.accesses.store? id access with
    | none =>
      rw [hs.accesses.store?_eq_none hid access' hstored]
      exact (h.fault hid fun _ => rfl).imp_right fun hb => ⟨_, _, rfl, hb⟩
    | some accesses =>
      obtain ⟨accesses', hstored', hmirrors⟩ := hs.accesses.store? hid ha hstored
      rw [hstored']
      exact ⟨_, rfl, hs.labels, hs.level, hs.lowest, hs.drafts, hs.frames, hmirrors⟩

theorem recordFrame_follows {frame frame' : Frame} (hid : p.known id)
    (hf : p.Frames id frame frame')
    (he : (∀ other, p.known other → arena'.kind? other = arena.kind? other) → name' = name) :
    p.Same c lowest (fun value => value) (recordFrame arena id name frame)
      (recordFrame arena' id name' frame') := by
  refine ⟨fun state hstate => ?_, fun state state' hs hstate => ?_⟩
  · simp only [recordFrame, Pass.run_get_bind] at hstate
    cases hstored : state.layout.frames.store? id frame with
    | none =>
      rw [hstored] at hstate
      exact hstate
    | some frames =>
      rw [hstored, hw] at hstate
      exact (hw state).mpr hstate
  · simp only [recordFrame, Pass.run_get_bind]
    cases hstored : state.layout.frames.store? id frame with
    | none =>
      rw [hs.frames.store?_eq_none hid frame' hstored]
      exact (h.fault hid fun hk => by rw [he hk]).imp_right fun hb => ⟨_, _, rfl, hb⟩
    | some frames =>
      obtain ⟨frames', hstored', hmirrors⟩ := hs.frames.store? hid hf hstored
      rw [hstored']
      exact ⟨_, rfl, hs.labels, hs.level, hs.lowest, hs.drafts, hmirrors, hs.accesses⟩

theorem placeLocal_follows (hid : p.known id)
    (he : (∀ other, p.known other → arena'.kind? other = arena.kind? other) → name' = name) :
    p.Same c lowest (fun value => value) (placeLocal arena id name size)
      (placeLocal arena' id name' size) := by
  have haccess : ∀ offset level, p.Same c lowest (fun value => value)
      (recordAccess arena id (.inFrame size offset level))
      (recordAccess arena' id (.inFrame size offset level)) := fun offset level =>
    recordAccess_follows h hw hid fun _ => rfl
  refine ⟨fun state hstate => ?_, fun state state' hs hstate => ?_⟩
  · simp only [placeLocal, Pass.run_get_bind] at hstate
    cases hd : state.drafts with
    | nil =>
      rw [hd] at hstate
      exact hstate
    | cons draft others =>
      simp only [hd] at hstate
      cases hroom : draft.reserveLocal? size with
      | none =>
        rw [hroom] at hstate
        exact hstate
      | some found =>
        rw [hroom] at hstate
        have hset := (haccess found.1 state.level).within _ hstate
        rw [hw] at hset ⊢
        exact hset
  · simp only [placeLocal, Pass.run_get_bind, hs.drafts, hs.level] at hstate ⊢
    cases hd : state.drafts with
    | nil => exact (h.fault hid fun _ => rfl).imp_right fun hb => ⟨_, _, rfl, hb⟩
    | cons draft others =>
      simp only [hd] at hstate
      simp only [List.map_cons, FrameDraft.reserveLocal?_relabel]
      cases hroom : draft.reserveLocal? size with
      | none => exact (h.fault hid fun hk => by rw [he hk]).imp_right fun hb => ⟨_, _, rfl, hb⟩
      | some found =>
        rw [hroom] at hstate
        refine (haccess found.1 state.level).agree _ _ ?_ hstate
        exact ⟨hs.labels, rfl, hs.lowest, rfl, hs.frames, hs.accesses⟩

/-- Outside all functions, what is placed there keeps its name if its access is compared. -/
theorem place_follows (hid : p.known id)
    (hn : lowest = 0 → p.settled id → name' = name)
    (he : (∀ other, p.known other → arena'.kind? other = arena.kind? other) → name' = name) :
    p.Same c lowest (fun value => value) (place arena types id name)
      (place arena' types id name') := by
  refine (measured_follows h hid).bind fun size => ?_
  refine ⟨fun state hstate => ?_, fun state state' hs hstate => ?_⟩
  · simp only [Pass.run_get_bind] at hstate
    split at hstate
    · have hglobal : p.Same c lowest (fun value => value)
          (recordAccess arena id (.global size (.named name)))
          (recordAccess arena' id (.global size (.named name))) :=
        recordAccess_follows h hw hid fun _ => rfl
      exact hglobal.within state hstate
    · have hlocal : p.Same c lowest (fun value => value) (placeLocal arena id name size)
          (placeLocal arena' id name' size) := placeLocal_follows h hw hid he
      exact hlocal.within state hstate
  · simp only [Pass.run_get_bind, hs.level] at hstate ⊢
    split
    · next hlevel =>
      rw [if_pos hlevel] at hstate
      refine (recordAccess_follows h hw hid fun hsettled => ?_).agree _ _ hs hstate
      have hlowest := hs.lowest
      rw [hn (by omega) hsettled]
      rfl
    · next hlevel =>
      rw [if_neg hlevel] at hstate
      exact (placeLocal_follows h hw hid he).agree _ _ hs hstate

omit h in
/-- The label of a function outside all others is its name, and others are drawn. -/
theorem functionLabel_follows (hn : lowest = 0 → name' = name) :
    p.Same c (lowest + 1) (Label.relabel p.renumbering.renumber) (functionLabel name)
      (functionLabel name') := by
  refine ⟨fun state hstate => ?_, fun state state' hs hstate => ?_⟩
  · simp only [functionLabel, Pass.run_get_bind] at hstate
    split at hstate
    · exact hstate
    · have hdrawn : c.within { state with labels := state.labels.rest } := hstate
      rw [hw] at hdrawn ⊢
      exact Nat.le_of_succ_le hdrawn
  · simp only [functionLabel, Pass.run_get_bind, hs.level] at hstate ⊢
    split
    · next hlevel =>
      have hlowest := hs.lowest
      exact ⟨state', by rw [hn (by omega)]; rfl, hs⟩
    · next hlevel =>
      rw [if_neg hlevel] at hstate
      have hdrawn : c.within { state with labels := state.labels.rest } := hstate
      rw [hw] at hdrawn
      refine ⟨{ state' with labels := state'.labels.rest, level := state.level }, ?_,
        hs.labels.rest, rfl, hs.lowest, hs.drafts, hs.frames, hs.accesses⟩
      rw [← hs.labels.label hdrawn]
      rfl

theorem layOutParameters_follows {draft : FrameDraft} (hm : ∀ id ∈ ids, p.known id)
    (he : (∀ other, p.known other → arena'.kind? other = arena.kind? other) → name' = name) :
    p.Same c lowest (FrameDraft.relabel p.renumbering.renumber)
      (layOutParameters arena types name draft ids)
      (layOutParameters arena' types name' (draft.relabel p.renumbering.renumber) ids) := by
  induction ids generalizing draft with
  | nil => exact .pure _ draft
  | cons id others ih =>
    have hid := hm id List.mem_cons_self
    refine (measured_follows h hid).bind fun size => ?_
    rw [FrameDraft.reserveParameter?_relabel]
    cases hroom : draft.reserveParameter? size with
    | none => exact fail_follows h hid fun hk => by simp only [Arena.definition?, hk id hid, he hk]
    | some found =>
      have hnext : ∀ level, p.Same c lowest (FrameDraft.relabel p.renumbering.renumber)
          (do recordAccess arena id (.parameter size found.1 level)
              layOutParameters arena types name found.2 others)
          (do recordAccess arena' id (.parameter size found.1 level)
              layOutParameters arena' types name'
                (found.2.relabel p.renumbering.renumber) others) := fun level =>
        (recordAccess_follows h hw hid fun _ => rfl).bind fun _ =>
          ih fun other ho => hm other (List.mem_cons_of_mem _ ho)
      exact .read (fun level => level) State.level State.level (fun _ _ hs => hs.level) hnext

theorem openFrame_follows (hid : p.known id) (hm : ∀ id ∈ ids, p.known id)
    (hn : lowest = 0 → name' = name)
    (he : (∀ other, p.known other → arena'.kind? other = arena.kind? other) → name' = name) :
    p.Same c (lowest + 1) (FrameDraft.relabel p.renumbering.renumber)
      (openFrame arena types id name ids) (openFrame arena' types id name' ids) := by
  refine (functionLabel_follows hw hn).bind fun label => ?_
  have hnext : ∀ level, p.Same c (lowest + 1) (FrameDraft.relabel p.renumbering.renumber)
      (((FrameDraft.start label level).reserveParameter? wordSize).elim
        (fail arena id (.frameTooLarge name))
        fun found => layOutParameters arena types name found.2 ids)
      (((FrameDraft.start (label.relabel p.renumbering.renumber) level).reserveParameter?
          wordSize).elim (fail arena' id (.frameTooLarge name'))
        fun found => layOutParameters arena' types name' found.2 ids) := by
    intro level
    rw [← FrameDraft.start_relabel, FrameDraft.reserveParameter?_relabel]
    cases (FrameDraft.start label level).reserveParameter? wordSize with
    | none => exact fail_follows h hid fun hk => by rw [he hk]
    | some found => exact layOutParameters_follows h hw hm he
  exact .read (fun level => level) State.level State.level (fun _ _ hs => hs.level) hnext

theorem layOutFunction_follows {body : NodeId} (hid : p.known id) (hm : ∀ id ∈ ids, p.known id)
    (hv : p.Same c (lowest + 1) (fun value => value) (visit body) (visit' body))
    (hn : lowest = 0 → name' = name)
    (he : (∀ other, p.known other → arena'.kind? other = arena.kind? other) → name' = name) :
    p.Same c lowest (fun value => value) (layOutFunction arena types visit id name ids body)
      (layOutFunction arena' types visit' id name' ids body) := by
  have hback : ∀ {state after : State}, after.labels = state.labels → c.within after →
      c.within state := fun hl => by
    rw [hw, hw, hl]
    exact fun hle => hle
  have hhead : p.Same c (lowest + 1) (Option.map (FrameDraft.relabel p.renumbering.renumber))
      (do visit body; return (← get).drafts.head?)
      (do visit' body; return (← get).drafts.head?) := by
    refine hv.bind fun _ => ?_
    have hnext : ∀ found : Option FrameDraft, p.Same c (lowest + 1)
        (Option.map (FrameDraft.relabel p.renumbering.renumber)) (pure found)
        (pure (found.map (FrameDraft.relabel p.renumbering.renumber))) := fun found => .pure _ found
    refine .read _ (fun state => state.drafts.head?) (fun state => state.drafts.head?)
      (fun state state' hs => ?_) hnext
    rw [hs.drafts, List.head?_map]
  have hbuilt : Pass.Follows c (p.Related (lowest + 1)) (p.Related lowest)
      (Option.map (FrameDraft.relabel p.renumbering.renumber))
      (Pass.leaving State.closed do visit body; return (← get).drafts.head?)
      (Pass.leaving State.closed do visit' body; return (← get).drafts.head?) := by
    refine .leaving (fun _ => hback rfl) (fun state state' hs => ?_) hhead
    have hlowest := hs.lowest
    refine ⟨hs.labels, ?_, ?_, ?_, hs.frames, hs.accesses⟩
    · simp only [State.closed, hs.level]
    · simp only [State.closed]
      omega
    · simp only [State.closed, hs.drafts, List.map_drop]
  have hopen : Pass.Follows c (p.Related lowest) (p.Related (lowest + 1)) (fun value => value)
      (modify fun state => { state with level := state.level + 1 } : LayOut PUnit)
      (modify fun state => { state with level := state.level + 1 } : LayOut PUnit) := by
    refine .modify (fun _ => hback rfl) fun state state' hs _ => ?_
    refine ⟨hs.labels, ?_, Nat.succ_le_succ hs.lowest, hs.drafts, hs.frames, hs.accesses⟩
    rw [hs.level]
  refine hopen.bind fun _ => (openFrame_follows h hw hid hm hn he).bind fun draft => ?_
  refine Pass.Follows.bind (.modify (fun _ => hback rfl) fun state state' hs _ => ?_) fun _ =>
    hbuilt.bind fun built => ?_
  · refine ⟨hs.labels, hs.level, hs.lowest, ?_, hs.frames, hs.accesses⟩
    rw [hs.drafts, List.map_cons]
  · cases built with
    | none => exact fail_follows h hid fun hk => by rw [he hk]
    | some draft => exact recordFrame_follows h hw hid rfl he

omit hw in
theorem argumentBytes_follows (hid : p.known id) (hm : ∀ id ∈ ids, p.known id)
    (he : (∀ other, p.known other → arena'.kind? other = arena.kind? other) → name' = name) :
    p.Same c lowest (fun size => size) (argumentBytes arena types id name size ids)
      (argumentBytes arena' types id name' size ids) := by
  induction ids generalizing size with
  | nil => exact .pure (fun size => size) size
  | cons argument others ih =>
    refine (measured_follows h (hm argument List.mem_cons_self)).bind fun more => ?_
    dsimp only
    split
    · exact ih fun other ho => hm other (List.mem_cons_of_mem _ ho)
    · exact fail_follows h hid fun hk => by rw [he hk]

omit h in
theorem reserveArguments_follows :
    p.Same c lowest (fun value => value) (reserveArguments size) (reserveArguments size) := by
  refine .modify (fun state hstate => ?_) fun state state' hs _ => ?_
  · rw [hw] at hstate ⊢
    split at hstate <;> exact hstate
  · have hdrafts := hs.drafts
    cases hd : state.drafts with
    | nil =>
      rw [hd, List.map_nil] at hdrafts
      simp only [hdrafts]
      exact hs
    | cons draft others =>
      rw [hd, List.map_cons] at hdrafts
      simp only [hdrafts]
      exact ⟨hs.labels, hs.level, hs.lowest, rfl, hs.frames, hs.accesses⟩

theorem layOutCall_follows (hid : p.known id) (hm : ∀ id ∈ ids, p.known id)
    (hv : ∀ id, p.known id → p.Same c lowest (fun value => value) (visit id) (visit' id))
    (he : (∀ other, p.known other → arena'.kind? other = arena.kind? other) → name' = name) :
    p.Same c lowest (fun value => value) (layOutCall arena bindings types visit id name ids)
      (layOutCall arena' bindings types visit' id name' ids) := by
  refine Pass.Follows.bind (.forM fun argument ha => hv argument (hm argument ha)) fun _ => ?_
  exact (argumentBytes_follows h hid hm he).bind fun total => reserveArguments_follows hw

/-- A definition is laid out in the same way, if it keeps its name where that is its label. -/
theorem visitDefinition_follows {item : Definition} (hid : p.known id)
    (hk : arena.kind? id = some (.definition item))
    (hv : ∀ id, p.known id → p.Same c (lowest + 1) (fun value => value) (visit id) (visit' id))
    (hn : lowest = 0 → p.settled id → names id = item.name)
    (hf : lowest = 0 → (NodeKind.definition item).isFunction = true → names id = item.name) :
    p.Same c lowest (fun value => value) (visitNode arena bindings types visit id)
      (visitNode arena' bindings types visit' id) := by
  obtain ⟨kind, hk', hkind, -⟩ := h.kind hid
  cases hk'.symm.trans hk
  have hm := h.child hid hk
  have hname : (∀ other, p.known other → arena'.kind? other = arena.kind? other) →
      item.named (names id) = item := fun he =>
    NodeKind.definition.inj (Arena.named_eq_self hid hk hkind he)
  simp only [NodeKind.children] at hm
  simp only [visitNode, hk, hkind]
  cases item with
  | function word parameters result body =>
    simp only [Definition.children, List.mem_append, List.mem_cons] at hm
    exact layOutFunction_follows h hw hid (fun parameter hp => hm parameter (.inl hp))
      (hv body (hm body (by simp))) (fun hl => hf hl rfl)
      fun he => (Definition.function.inj (hname he)).1
  | var word written =>
    exact place_follows h hw hid hn fun he => (Definition.var.inj (hname he)).1
  | type word written =>
    exact place_follows h hw hid hn fun he => (Definition.type.inj (hname he)).1
  | parameter => exact .pure (fun value => value) _

end Steps

variable (h : arena.Alike c names arena' p.known)
  (hw : ∀ state, c.within state ↔ state.labels.next ≤ p.renumbering.limit)

include h hw

/-- What stands in a function is laid out in the same way. -/
theorem visitWithin_follows (fuel : Nat) (hid : p.known id) :
    p.Same c (lowest + 1) (fun value => value) (visitWithin arena bindings types fuel id)
      (visitWithin arena' bindings types fuel id) := by
  induction fuel generalizing id lowest with
  | zero => exact fail_follows h hid fun _ => rfl
  | succ fuel ih =>
    obtain ⟨kind, hk, hk', -⟩ := h.kind hid
    have hm := h.child hid hk
    cases kind with
    | definition item =>
      exact visitDefinition_follows h hw hid hk (fun _ hbelow => ih hbelow) nofun nofun
    | definitions members =>
      simp only [visitWithin, visitNode, hk, hk']
      exact .forM fun member hmember => ih (hm member hmember)
    | expression item =>
      simp only [visitWithin, visitNode, hk, hk']
      cases item with
      | call callee arguments =>
        refine layOutCall_follows h hw hid hm (fun _ hbelow => ih hbelow) fun he => ?_
        exact (Expression.call.inj (NodeKind.expression.inj (Arena.named_eq_self hid hk hk' he))).1
      | _ => exact .forM fun below hbelow => ih (hm below hbelow)
    | type item =>
      simp only [visitWithin, visitNode, hk, hk']
      exact .pure (fun value => value) _

/-- Definitions outside all functions are laid out in the same way if they keep the names that are
their labels. -/
theorem visitOuter_follows {item : Definition} (fuel : Nat) (hid : p.known id)
    (hk : arena.kind? id = some (.definition item)) (hn : p.settled id → names id = item.name)
    (hf : (NodeKind.definition item).isFunction = true → names id = item.name) :
    p.Same c 0 (fun value => value) (visitWithin arena bindings types fuel id)
      (visitWithin arena' bindings types fuel id) := by
  cases fuel with
  | zero => exact fail_follows h hid fun _ => rfl
  | succ fuel =>
    exact visitDefinition_follows h hw hid hk (fun _ hbelow => visitWithin_follows h hw fuel hbelow)
      (fun _ => hn) fun _ => hf

/-- A program is laid out in the same way. -/
theorem visitProgram_follows {members : List NodeId} (fuel : Nat) (hid : p.known id)
    (hk : arena.kind? id = some (.definitions members))
    (hm : ∀ member ∈ members, ∃ item, arena.kind? member = some (.definition item) ∧
      (p.settled member → names member = item.name) ∧
        ((NodeKind.definition item).isFunction = true → names member = item.name)) :
    p.Same c 0 (fun value => value) (visitWithin arena bindings types fuel id)
      (visitWithin arena' bindings types fuel id) := by
  cases fuel with
  | zero => exact fail_follows h hid fun _ => rfl
  | succ fuel =>
    obtain ⟨kind, hk', hkind, -⟩ := h.kind hid
    cases hk'.symm.trans hk
    simp only [visitWithin, visitNode, hk, hkind]
    refine .forM fun member hmember => ?_
    obtain ⟨item, hitem, hn, hf⟩ := hm member hmember
    exact visitOuter_follows h hw fuel (h.child hid hk member hmember) hitem hn hf

omit h in
/-- A program is laid out in the same way if all its nodes keep their names. -/
theorem visitProgram_same (h : arena.Alike c arena.word arena' p.known) (ht : arena.IsTree)
    (hr : arena.root = some id) (hid : p.known id) (fuel : Nat) :
    p.Same c 0 (fun value => value) (visitWithin arena bindings types fuel id)
      (visitWithin arena' bindings types fuel id) := by
  obtain ⟨root, hroot, _, hs⟩ := ht
  cases hr.symm.trans hroot
  obtain ⟨members, hk⟩ := hs.exists_members
  refine visitProgram_follows h hw fuel hid hk fun member hmember => ?_
  obtain ⟨item, hitem, _⟩ := hs.exists_definition hk hmember
  have hword : arena.word member = item.name := by simp [Arena.word, hitem, NodeKind.word?]
  exact ⟨item, hitem, fun _ => hword, fun _ => hword⟩

end Pins.Layout
