import Pins.Proofs.Inventory
import Pins.Proofs.Labelled
import Pins.Proofs.LaidOutAlike
import Pins.Proofs.Lowers
import Pins.Proofs.LoweredAlike
import Pins.Proofs.Reordered

/-!
# Compiling top-level definitions in another order

Layout and lowering take one step for each top-level definition, and each step only depends on the
numbers of the labels that it draws (`Layout.visit_repeats`, `Lowering.lowerDefinition_repeats`). So
the definitions may come in any order: a program is compiled to the same frames, accesses and code
under a permutation of the numbers of labels, and to the same chunks in another order
(`Compilation.order_harmless`).
-/

namespace Pins

variable {arena : Arena} {root member : NodeId} {listed members : List NodeId}
  {bindings : NodeTable NodeId} {types : NodeTable Ty} {labels rest : LabelSupply}

namespace Layout

/-- What layout keeps for nodes: frames and accesses. -/
def view : Pass.View State (Option Frame × Option Access) where
  next state := state.labels.next
  kept state id := (state.layout.frames.get? id, state.layout.accesses.get? id)
  chunks _ := []
  blank := (none, none)
  relabel renumber kept :=
    (kept.1.map (Frame.relabel renumber), kept.2.map (Access.relabel renumber))
  relabel_blank _ := rfl
  relabel_relabel first second kept := by
    simp only [Option.map_map, Function.comp_def, Frame.relabel_relabel, Access.relabel_relabel]

/-- A state between two top-level definitions. -/
structure AtRest (arena : Arena) (listed : List NodeId) (state : State) : Prop where
  /-- It is outside all functions. -/
  level : state.level = 0
  /-- No frame is open. -/
  drafts : state.drafts = []
  /-- All is labelled rightly. -/
  labelled : Labelled arena listed state.layout state.labels.next

/-- Nothing is laid out yet. -/
theorem atRest_initial : AtRest arena listed (.initial labels) :=
  ⟨rfl, rfl, .empty labels.next⟩

/-- A top-level definition is laid out in the same way from any state. -/
theorem visit_repeats (h : arena.Reorders root listed members) (hm : member ∈ members)
    (fuel : Nat) :
    Pass.Repeats view 0 (AtRest arena listed) (fun id => id ∈ arena.traversal member)
      (visitWithin arena bindings types fuel member) where
  keeps {state after} hb hs := by
    obtain ⟨_, hsub, _⟩ := h.exists_subtree hm
    have hrun : (visitWithin arena bindings types fuel member).Runs Pass.Any state fun _ after =>
        Labels arena listed state after :=
      visitMember_labels fuel (h.perm.mem_iff.mpr hm) hsub.isSome_definition? hb.labelled
    obtain ⟨hlabelled, hvisits⟩ := hrun.of_ok hs
    have hdrafts := hvisits.drafts
    rw [hb.drafts, List.map_nil, List.map_eq_nil_iff] at hdrafts
    exact ⟨⟨hvisits.level.trans hb.level, hdrafts, hlabelled⟩, hvisits.supply⟩
  again {state state' after} renumber hb hb' hfresh hfresh' _ hs hr := by
    obtain ⟨item, hk, hword⟩ := h.exists_word hm
    let p : Pairing :=
      { renumbering := ⟨renumber, state.labels.next, state'.labels.next, after.labels.next, hr⟩
        known := fun id => id ∈ arena.traversal member
        settled := fun _ => True
        first := state.layout
        first' := state'.layout }
    have hfollows : p.Same (.valuesWithin fun found => found.labels.next ≤ after.labels.next) 0
        (fun value => value) (visitWithin arena bindings types fuel member)
        (visitWithin arena bindings types fuel member) :=
      visitOuter_follows (h.alike_member hm) (fun _ => Iff.rfl) fuel (h.mem_traversal hm) hk
        (fun _ => hword) fun _ => hword
    have hbefore : p.Related 0 state state' :=
      { labels := ⟨Nat.le_refl _, Nat.add_comm _ _⟩
        level := hb'.level.trans hb.level.symm
        lowest := Nat.zero_le _
        drafts := by rw [hb.drafts, hb'.drafts, List.map_nil]
        frames := .unset (fun id hid => congrArg Prod.fst (hfresh id hid)) fun id hid =>
          congrArg Prod.fst (hfresh' id hid)
        accesses := .unset (fun id hid => congrArg Prod.snd (hfresh id hid)) fun id hid =>
          congrArg Prod.snd (hfresh' id hid) }
    obtain ⟨after', hs', hafter⟩ := hfollows.of_ok hbefore hs (Nat.le_refl _)
    refine ⟨after', hs', hafter.labels.pace, fun id hid => ?_, fun id hid => ?_, fun id hid => ?_,
      [], [], rfl, rfl, .nil⟩
    · exact Prod.ext (hafter.frames.inside_eq_map hid fun _ _ he => he)
        (hafter.accesses.inside_eq_map hid fun _ _ he => he trivial)
    · exact Prod.ext (hafter.frames.outside id hid) (hafter.accesses.outside id hid)
    · exact Prod.ext (hafter.frames.outside' id hid) (hafter.accesses.outside' id hid)

/-- Two layouts are the same but for the numbers of labels. -/
structure SameButLabels (renumber : Nat → Nat) (layout layout' : Layout) : Prop where
  /-- Functions have the same frames. -/
  frames : ∀ id, layout'.frames.get? id = (layout.frames.get? id).map (Frame.relabel renumber)
  /-- Values are kept at the same places. -/
  accesses : ∀ id,
    layout'.accesses.get? id = (layout.accesses.get? id).map (Access.relabel renumber)

/-- The reordered program is laid out by the same steps in another order. -/
theorem ofArena_reordered_eq (h : arena.Reorders root listed members) {fuel : Nat}
    (hfuel : arena.depthBound = fuel + 1) :
    Pass.SameOutcome Eq
      ((Pass.finalState (members.forM (visitWithin arena bindings types fuel))
        (.initial labels)).map fun state => (state.layout, state.labels))
      (ofArena (arena.reordered members) bindings types labels) := by
  let run : LayOut Unit := members.forM (visitWithin arena bindings types fuel)
  let limit : Nat := (Pass.reached (run (.initial labels))).labels.next
  let p : Pairing := .same (fun id => id.index < root.index) (fun _ => True) limit
  have hfollows : p.Same (.faultsWithin fun state => state.labels.next ≤ limit) 0
      (fun value => value) run
      (members.forM (visitWithin (arena.reordered members) bindings types fuel)) := by
    refine .forM fun member hm => ?_
    obtain ⟨_, _, hl⟩ := h.exists_subtree hm
    obtain ⟨item, hk, hword⟩ := h.exists_word hm
    exact visitOuter_follows h.alike (fun _ => Iff.rfl) fuel hl hk (fun _ => hword) fun _ => hword
  have hroot : (arena.reordered members).root = some root := h.isRoot
  simp only [ofArena, hroot, visit, Arena.depthBound_reordered, hfuel, visitWithin, visitNode,
    h.kind_root]
  refine (hfollows.sameOutcome (Pairing.related_initial _ _ _ labels) (Nat.le_refl _)).map
    fun state state' hr => ?_
  rw [hr.labels.eq_of_same, hr.layout_eq fun _ _ => trivial]

/-- Layout does not depend on the order of the top-level definitions, but for the numbers of
labels. -/
theorem ofArena_reordered (h : arena.Reorders root listed members) :
    Pass.SameSuccess (fun found found' => ∃ renumber : Equiv.Perm Nat,
        found'.2 = found.2 ∧ (∀ number, found.2.next ≤ number → renumber number = number) ∧
          SameButLabels renumber found.1 found'.1)
      (ofArena arena bindings types labels)
      (ofArena (arena.reordered members) bindings types labels) := by
  obtain ⟨fuel, hdepth, _⟩ := h.exists_fuel
  have hnone : ∀ id, view.kept (.initial labels) id = view.blank := fun id => by
    simp [view, State.initial, Layout.empty]
  have hvisits : ∀ member ∈ members, Pass.Repeats view 0 (AtRest arena listed)
      (fun id => id ∈ arena.traversal member) (visitWithin arena bindings types fuel member) :=
    fun member hm => visit_repeats h hm fuel
  have horders := Pass.Rearranges.sameSuccess
    (.forM h.perm h.same.apart fun member hm => hvisits member (h.perm.mem_iff.mp hm))
    (.forM h.perm.symm h.apart hvisits) (atRest_initial : AtRest arena listed (.initial labels))
    (Nat.zero_le _) (fun id _ => hnone id) fun id _ => hnone id
  have hfirst : ofArena arena bindings types labels =
      (Pass.finalState (listed.forM (visitWithin arena bindings types fuel))
        (.initial labels)).map fun state => (state.layout, state.labels) := by
    simp only [ofArena, h.isRoot, visit, hdepth, visitWithin, visitNode, h.kind]
  rw [hfirst]
  refine Pass.SameSuccess.trans (horders.map fun after after' hm => ?_)
    (ofArena_reordered_eq h hdepth) fun _ _ _ hs he => he ▸ hs
  obtain ⟨renumber, hnext, hfixed, hm⟩ := hm
  have hkept := hm.kept_eq hnone hnone
  exact ⟨renumber, congrArg LabelSupply.mk hnext, fun number hn => hfixed number (.inr hn),
    fun id => congrArg Prod.fst (hkept id), fun id => congrArg Prod.snd (hkept id)⟩

section Labels

variable {layout : Layout} {next : Nat} {renumber : Nat → Nat}

/-- Frames keep their labels if the numbers that were drawn stay. -/
theorem Labelled.frame_relabel (h : Labelled arena listed layout next)
    (hr : ∀ number < next, renumber number = number) (id : NodeId) :
    (layout.frames.get? id).map (Frame.relabel renumber) = layout.frames.get? id := by
  cases hf : layout.frames.get? id with
  | none => rfl
  | some frame =>
    have hlabel : frame.label.relabel renumber = frame.label := by
      rcases h.frame hf with ⟨_, _, _, he⟩ | ⟨number, hlt, he⟩
      · rw [he, Label.relabel]
      · rw [he, Label.relabel, hr number hlt]
    rw [Option.map_some, Frame.relabel, hlabel]

/-- Accesses keep their labels, which are names. -/
theorem Labelled.access_relabel (h : Labelled arena listed layout next) (id : NodeId) :
    (layout.accesses.get? id).map (Access.relabel renumber) = layout.accesses.get? id := by
  cases ha : layout.accesses.get? id with
  | none => rfl
  | some access =>
    cases access with
    | inFrame | parameter => rfl
    | global size label =>
      obtain ⟨_, _, _, he⟩ := h.access ha
      rw [Option.map_some, Access.relabel, he, Label.relabel]

end Labels

end Layout

namespace Lowering

/-- What lowering keeps for nodes: their code. -/
def view : Pass.View State (Option Ir.Tree) where
  next state := state.labels.next
  kept state id := state.trees.get? id
  chunks state := state.chunks.toList
  blank := none
  relabel renumber kept := kept.map (Ir.Tree.relabel renumber)
  relabel_blank _ := rfl
  relabel_relabel first second kept := by
    simp only [Option.map_map, Function.comp_def, Ir.Tree.relabel_relabel]

variable {layout layout' : Layout}

/-- A top-level definition is lowered in the same way from any state. -/
theorem lowerDefinition_repeats (h : arena.Reorders root listed members) (hm : member ∈ members)
    {floor : Nat} (hl : Layout.Labelled arena listed layout floor) (fuel : Nat) :
    Pass.Repeats view floor (fun state => state.level = 0) (fun id => id ∈ arena.traversal member)
      (lowerDefinition ⟨arena, bindings, types, layout⟩
        (lowerWithin ⟨arena, bindings, types, layout⟩ fuel) member) where
  keeps {state after} hb hs := by
    obtain ⟨chunks, hlowers, hlevel, _⟩ :=
      (lowerDefinition_emits (lowerWithin_emits fuel)).of_ok hs
    exact ⟨hlevel.trans hb, hlowers.next_le⟩
  again {state state' after} renumber hb hb' hfresh hfresh' hfloor hs hr := by
    let program : Program := ⟨arena, bindings, types, layout⟩
    let p : Pairing :=
      { renumbering := ⟨renumber, state.labels.next, state'.labels.next, after.labels.next, hr⟩
        known := fun id => id ∈ arena.traversal member
        first := state
        first' := state' }
    have hmatched : p.Matched (.valuesWithin fun found => found.labels.next ≤ after.labels.next)
        arena.word program program :=
      { alike := h.alike_member hm
        bindings := rfl
        types := rfl
        frames := fun _ => (hl.frame_relabel hfloor _).symm
        reach := fun _ _ => .inr fun _ => trivial
        named := fun _ _ _ => (hl.access_relabel _).symm
        stored := fun _ _ => (hl.access_relabel _).symm }
    have hfollows := lowerDefinition_follows hmatched (fun _ => Iff.rfl)
      (fun _ hbelow => lowerWithin_follows hmatched (fun _ => Iff.rfl) fuel hbelow)
      (h.mem_traversal hm)
    have hbefore : p.Related state state' :=
      { labels := ⟨Nat.le_refl _, Nat.add_comm _ _⟩
        level := hb'.trans hb.symm
        trees := .unset hfresh hfresh'
        chunks := ⟨[], (List.append_nil _).symm, (List.append_nil _).symm⟩ }
    obtain ⟨after', hs', hafter⟩ := hfollows.of_ok hbefore hs (Nat.le_refl _)
    obtain ⟨added, ha, ha'⟩ := hafter.chunks
    exact ⟨after', hs', hafter.labels.pace,
      fun id hid => hafter.trees.inside_eq_map hid fun _ _ he => he, hafter.trees.outside,
      hafter.trees.outside', added, _, ha, ha', .refl _⟩

/-- What two runs of lowering found is the same but for the numbers of labels and the order of the
chunks. -/
structure SameButLabels (renumber : Nat → Nat) (found found' : NodeTable Ir.Tree × Array Chunk) :
    Prop where
  /-- Nodes have the same code. -/
  trees : ∀ id, found'.1.get? id = (found.1.get? id).map (Ir.Tree.relabel renumber)
  /-- The chunks are the same in another order. -/
  chunks : found'.2.toList.Perm (found.2.toList.map (Chunk.relabel renumber))

/-- Numbers may be replaced twice. -/
theorem SameButLabels.trans {renumber renumber' : Nat → Nat}
    {found found' found'' : NodeTable Ir.Tree × Array Chunk}
    (h : SameButLabels renumber found found') (h' : SameButLabels renumber' found' found'') :
    SameButLabels (renumber' ∘ renumber) found found'' where
  trees id := by
    rw [h'.trees, h.trees, Option.map_map]
    exact congrArg (Option.map · _) (funext fun tree => tree.relabel_relabel renumber renumber')
  chunks := by
    refine h'.chunks.trans ((h.chunks.map _).trans (.of_eq ?_))
    rw [List.map_map]
    exact List.map_congr_left fun chunk _ => chunk.relabel_relabel renumber renumber'

/-- The reordered program is lowered by the same steps in another order, with the numbers of labels
that layout gives. -/
theorem ofProgram_reordered_eq (h : arena.Reorders root listed members)
    (hbound : Binding.Bound arena bindings) {renumber : Nat → Nat}
    (hl : Layout.SameButLabels renumber layout layout')
    (hr : ∀ number, labels.next ≤ number → renumber number = number) :
    Pass.SameOutcome (SameButLabels renumber)
      ((Pass.finalState
        (members.forM (lowerDefinition ⟨arena, bindings, types, layout⟩
          (lower ⟨arena, bindings, types, layout⟩)))
        (.initial labels)).map fun state => (state.trees, state.chunks))
      (ofProgram ⟨arena.reordered members, bindings, types, layout'⟩ labels) := by
  let program : Program := ⟨arena, bindings, types, layout⟩
  let program' : Program := ⟨arena.reordered members, bindings, types, layout'⟩
  let run : Lower Unit := members.forM (lowerDefinition program (lower program))
  let limit : Nat := (Pass.reached (run (.initial labels))).labels.next
  let p : Pairing :=
    { renumbering := ⟨renumber, labels.next, labels.next, limit, fun number hn _ => by rw [hr _ hn]⟩
      known := fun id => id.index < root.index
      first := .initial labels
      first' := .initial labels }
  have hmatched : p.Matched (.faultsWithin fun state => state.labels.next ≤ limit) arena.word
      program program' :=
    { alike := h.alike
      bindings := rfl
      types := rfl
      frames := hl.frames
      reach := fun hid hb => .inl (h.lt_root_of_bound hbound hid hb)
      named := fun _ _ _ => hl.accesses _
      stored := fun _ _ => hl.accesses _ }
  have hfollows : p.Same (.faultsWithin fun state => state.labels.next ≤ limit)
      (fun value => value) run
      (members.forM (lowerDefinition program' (lowerWithin program' arena.depthBound))) := by
    refine .forM fun member hm => ?_
    obtain ⟨_, _, hlt⟩ := h.exists_subtree hm
    exact lowerDefinition_follows hmatched (fun _ => Iff.rfl)
      (fun _ hbelow => lowerWithin_follows hmatched (fun _ => Iff.rfl) arena.depthBound hbelow) hlt
  have hinitial : p.Related (.initial labels) (.initial labels) :=
    ⟨⟨Nat.le_refl _, rfl⟩, rfl, .empty, [], rfl, rfl⟩
  have hroot : (arena.reordered members).root = some root := h.isRoot
  simp only [ofProgram, hroot, lowerDefinitions, h.kind_root, lower, Arena.depthBound_reordered]
  refine (hfollows.sameOutcome hinitial (Nat.le_refl _)).map fun state state' hs => ?_
  obtain ⟨added, ha, ha'⟩ := hs.chunks
  refine ⟨fun id => hs.trees.get?_eq_map fun _ _ _ he => he, .of_eq ?_⟩
  rw [ha, ha']
  rfl

/-- Lowering does not depend on the order of the top-level definitions, but for the numbers of
labels and the order of the chunks. -/
theorem ofProgram_reordered (h : arena.Reorders root listed members)
    (hbound : Binding.Bound arena bindings)
    (hlabelled : Layout.Labelled arena listed layout labels.next) {renumber : Nat → Nat}
    (hl : Layout.SameButLabels renumber layout layout')
    (hr : ∀ number, labels.next ≤ number → renumber number = number) :
    Pass.SameSuccess (fun found found' => ∃ drawn : Equiv.Perm Nat,
        (∀ number < labels.next, drawn number = number) ∧
          SameButLabels (renumber ∘ drawn) found found')
      (ofProgram ⟨arena, bindings, types, layout⟩ labels)
      (ofProgram ⟨arena.reordered members, bindings, types, layout'⟩ labels) := by
  let program : Program := ⟨arena, bindings, types, layout⟩
  have hnone : ∀ id, view.kept (.initial labels) id = view.blank := fun id => by
    simp [view, State.initial]
  have hsteps : ∀ member ∈ members, Pass.Repeats view labels.next (fun state => state.level = 0)
      (fun id => id ∈ arena.traversal member) (lowerDefinition program (lower program) member) :=
    fun member hm => lowerDefinition_repeats h hm hlabelled arena.depthBound
  have horders := Pass.Rearranges.sameSuccess
    (.forM h.perm h.same.apart fun member hm => hsteps member (h.perm.mem_iff.mp hm))
    (.forM h.perm.symm h.apart hsteps) (rfl : (State.initial labels).level = 0) (Nat.le_refl _)
    (fun id _ => hnone id) fun id _ => hnone id
  have hfirst : ofProgram program labels =
      (Pass.finalState (listed.forM (lowerDefinition program (lower program)))
        (.initial labels)).map fun state => (state.trees, state.chunks) := by
    simp only [ofProgram, program, h.isRoot, lowerDefinitions, h.kind]
  have hdone : Pass.SameSuccess (fun found found' => ∃ drawn : Equiv.Perm Nat,
      (∀ number < labels.next, drawn number = number) ∧ SameButLabels drawn found found')
      (ofProgram program labels)
      ((Pass.finalState (members.forM (lowerDefinition program (lower program)))
        (.initial labels)).map fun state => (state.trees, state.chunks)) := by
    rw [hfirst]
    refine horders.map fun after after' hm => ?_
    obtain ⟨drawn, _, hfixed, hm⟩ := hm
    obtain ⟨added, added', ha, ha', hp⟩ := hm.chunks
    have hadded : after.chunks.toList = added := ha
    have hadded' : after'.chunks.toList = added' := ha'
    refine ⟨drawn, fun number hn => hfixed number (.inl hn), hm.kept_eq hnone hnone, ?_⟩
    rwa [hadded, hadded']
  refine hdone.trans (ofProgram_reordered_eq h hbound hl hr) fun _ _ _ hs hs' => ?_
  obtain ⟨drawn, hd, hs⟩ := hs
  exact ⟨drawn, hd, hs.trans hs'⟩

end Lowering

namespace Compilation

/-- Two compilations are the same but for the numbers of labels and the order of the chunks. -/
structure SameButLabels (renumber : Nat → Nat) (compiled compiled' : Compilation) : Prop where
  /-- References mean the same definitions. -/
  bindings : compiled'.program.bindings = compiled.program.bindings
  /-- Nodes have the same types. -/
  types : compiled'.program.types = compiled.program.types
  /-- Functions have the same frames. -/
  frames : ∀ id, compiled'.program.layout.frames.get? id =
    (compiled.program.layout.frames.get? id).map (Frame.relabel renumber)
  /-- Values are kept at the same places. -/
  accesses : ∀ id, compiled'.program.layout.accesses.get? id =
    (compiled.program.layout.accesses.get? id).map (Access.relabel renumber)
  /-- Nodes have the same code. -/
  trees : ∀ id, compiled'.trees.get? id = (compiled.trees.get? id).map (Ir.Tree.relabel renumber)
  /-- The chunks are the same in another order. -/
  chunks : compiled'.chunks.toList.Perm (compiled.chunks.toList.map (Chunk.relabel renumber))

/-- The order of the top-level definitions of a program that was read does not matter: in any order
it is compiled to the same, up to a permutation of the numbers of labels and of the chunks, or it is
refused in any order. -/
theorem order_harmless {file : String} {tokens : List Token}
    (hp : parse file tokens = .ok arena) (hm : members.Perm arena.outermost) :
    Pass.SameSuccess (fun compiled compiled' =>
        ∃ renumber : Equiv.Perm Nat, SameButLabels renumber compiled compiled')
      (ofArena arena) (ofArena (arena.reordered members)) := by
  obtain ⟨root, hroot, hends, hs⟩ := parse_isTree hp
  obtain ⟨listed, hk⟩ := hs.exists_members
  have houtermost : arena.outermost = listed := by simp [Arena.outermost, hroot, hk]
  have h : arena.Reorders root listed members := ⟨hroot, hends, hs, hk, houtermost ▸ hm.symm⟩
  refine (Binding.ofArena_reordered h).bind fun bindings _ hb he => ?_
  subst he
  have hbound := Binding.ofArena_bound h.tree hb
  refine (Typing.ofArena_reordered h hbound).bind fun types _ _ he => ?_
  subst he
  refine (Layout.ofArena_reordered h).bind fun found found' hl hsame => ?_
  obtain ⟨layout, labels⟩ := found
  obtain ⟨layout', labels'⟩ := found'
  obtain ⟨renumber, he, hfixed, hsame⟩ := hsame
  obtain rfl : labels = labels' := he.symm
  have hlabelled : Layout.Labelled arena listed layout labels.next :=
    (Layout.ofArena_labelled hk (fun member hmember => by
      obtain ⟨item, hitem, _⟩ := hs.exists_definition hk hmember
      simp [Arena.definition?, hitem]) hroot hl).2
  refine (Lowering.ofProgram_reordered h hbound hlabelled hsame hfixed).bind
    fun lowered lowered' _ hlowered => ?_
  obtain ⟨drawn, hdrawn, hlowered⟩ := hlowered
  refine ⟨drawn.trans renumber, rfl, rfl, fun id => ?_, fun id => ?_, hlowered.trees,
    hlowered.chunks⟩
  · have hkept := hlabelled.frame_relabel hdrawn id
    have hboth : Frame.relabel (drawn.trans renumber) =
        Frame.relabel renumber ∘ Frame.relabel drawn :=
      funext fun frame => (frame.relabel_relabel drawn renumber).symm
    rw [hsame.frames, hboth, ← Option.map_map, hkept]
  · have hkept : (layout.accesses.get? id).map (Access.relabel drawn) = layout.accesses.get? id :=
      hlabelled.access_relabel id
    have hboth : Access.relabel (drawn.trans renumber) =
        Access.relabel renumber ∘ Access.relabel drawn :=
      funext fun access => (access.relabel_relabel drawn renumber).symm
    rw [hsame.accesses, hboth, ← Option.map_map, hkept]

/-- Two functions with a literal each change places, and with them the labels of the literals. -/
theorem order_harmless_of_swap :
    ∃ arena compiled compiled', ofArena arena = .ok compiled ∧ arena.outermost = [⟨2⟩, ⟨5⟩] ∧
      ofArena (arena.reordered [⟨5⟩, ⟨2⟩]) = .ok compiled' ∧
      ∃ renumber : Equiv.Perm Nat, SameButLabels renumber compiled compiled' := by
  obtain ⟨compiled, hc, houtermost⟩ : ∃ compiled,
      ofSource "test" "fun f(): string = 'a'; fun g(): string = 'b'" = .ok compiled ∧
      compiled.program.arena.outermost = [⟨2⟩, ⟨5⟩] :=
    exists_of_any (by decide +kernel)
  obtain ⟨tokens, arena, _, hp, ha⟩ := ofSource_eq_ok hc
  obtain ⟨_, _, _, _, _, _, _, _, he⟩ := ofArena_eq_ok ha
  have harena : compiled.program.arena = arena := by rw [he]
  rw [harena] at houtermost
  have hm : List.Perm [⟨5⟩, ⟨2⟩] arena.outermost := by
    rw [houtermost]
    exact .swap _ _ _
  have hsame := order_harmless hp hm
  rw [ha] at hsame
  cases hc' : ofArena (arena.reordered [⟨5⟩, ⟨2⟩]) with
  | error diagnostic =>
    rw [hc'] at hsame
    exact hsame.elim
  | ok compiled' =>
    rw [hc'] at hsame
    exact ⟨arena, compiled, compiled', ha, houtermost, hc', hsame⟩

end Compilation

end Pins
