import Mathlib.Data.List.Nodup
import Pins.Proofs.BoundAlike
import Pins.Proofs.Interchange
import Pins.Proofs.Traversal
import Pins.Proofs.Typed
import Pins.Proofs.TypedAlike

/-!
# Top-level definitions in another order

The top-level definitions of a program may be listed in another order, with all nodes and their
numbers as they are (`Arena.reordered`). The result is no longer an arena that reading a source can
give, for its root lists intervals that do not follow on each other; but below the root nothing is
changed, so each definition is visited as before, and only the order of these visits is another one.

Binding and typing end the same way in any order. A visit of one interval leaves the others as they
are (`Sweep.Lasting`), so behind all visits every node is settled, whichever came first.
-/

namespace Pins

namespace Arena

variable {arena : Arena} {root id member : NodeId} {members listed : List NodeId}

/-- The arena with its top-level definitions in another order. -/
def reordered (arena : Arena) (members : List NodeId) : Arena :=
  { arena with
    nodes := arena.nodes.mapIdx fun index node =>
      if arena.root = some ⟨index⟩ then { node with kind := .definitions members } else node }

/-- Only the root stands for something else. -/
theorem kind?_reordered (arena : Arena) (members : List NodeId) (id : NodeId) :
    (arena.reordered members).kind? id =
      if arena.root = some id then (arena.kind? id).map fun _ => .definitions members
      else arena.kind? id := by
  simp only [kind?, node?, reordered, Array.getElem?_mapIdx, Option.map_map]
  cases arena.nodes[id.index]? with
  | none => split <;> rfl
  | some node =>
    simp only [Option.map_some, Function.comp_apply]
    split <;> rfl

theorem size_reordered : (arena.reordered members).size = arena.size := by
  simp [size, reordered]

theorem depthBound_reordered : (arena.reordered members).depthBound = arena.depthBound := by
  rw [depthBound, size_reordered, depthBound]

/-- The nodes of a subtree are those of an interval. -/
theorem Subtree.mem_traversal_iff {place : Place} {first : Nat} (ht : arena.IsTree)
    (hs : arena.Subtree place first member) :
    id ∈ arena.traversal member ↔ first ≤ id.index ∧ id.index ≤ member.index := by
  rw [(hs.traversal_perm ht).mem_iff, mem_interval_iff, Nat.lt_succ_iff]

/-- What is directly below a node of a subtree belongs to the subtree. -/
theorem Subtree.mem_traversal_child {place : Place} {first : Nat} {kind : NodeKind}
    {below : NodeId} (ht : arena.IsTree) (hs : arena.Subtree place first member)
    (hid : id ∈ arena.traversal member) (hk : arena.kind? id = some kind)
    (hm : below ∈ kind.children) : below ∈ arena.traversal member := by
  rw [hs.mem_traversal_iff ht] at hid ⊢
  obtain ⟨_, start, hsub⟩ := ht.exists_subtree hk
  obtain ⟨_, _, _, hbelow, hstart, hlt⟩ := hsub.child_of_mem hk hm
  have hle := hbelow.le
  have hfirst := hs.start_le hsub hid.1 hid.2
  omega

/-- A program whose top-level definitions are listed, and another order of these. -/
structure Reorders (arena : Arena) (root : NodeId) (listed members : List NodeId) : Prop where
  /-- The program has a root. -/
  isRoot : arena.root = some root
  /-- The root is the last node. -/
  ends : root.index + 1 = arena.size
  /-- The nodes form a tree. -/
  subtree : arena.Subtree .definitions 0 root
  /-- The root lists the definitions. -/
  kind : arena.kind? root = some (.definitions listed)
  /-- The definitions are the same in another order. -/
  perm : listed.Perm members

namespace Reorders

variable (h : arena.Reorders root listed members)

include h

theorem tree : arena.IsTree := ⟨root, h.isRoot, h.ends, h.subtree⟩

/-- The order may stay as it is. -/
theorem same : arena.Reorders root listed listed := { h with perm := .refl listed }

/-- The root is within the bound on the depth of a pass. -/
theorem exists_fuel : ∃ fuel, arena.depthBound = fuel + 1 ∧ root.index < fuel := by
  have hdepth := arena.size_lt_depthBound
  have hends := h.ends
  exact ⟨arena.depthBound - 1, by omega, by omega⟩

/-- The definitions stand one behind the other below the root. -/
theorem forest : arena.Forest 0 (NodeKind.definitions listed).places root.index := by
  obtain ⟨kind, hk, _, _, hf⟩ := subtree_iff.mp h.subtree
  cases hk.symm.trans h.kind
  exact hf

/-- A definition has a name. -/
theorem exists_word (hm : member ∈ members) :
    ∃ item, arena.kind? member = some (.definition item) ∧ arena.word member = item.name := by
  obtain ⟨item, hk, _⟩ := h.subtree.exists_definition h.kind (h.perm.mem_iff.mpr hm)
  exact ⟨item, hk, by simp [Arena.word, hk, NodeKind.word?]⟩

/-- A definition is the root of a subtree below the root. -/
theorem exists_subtree (hm : member ∈ members) :
    ∃ first, arena.Subtree .definition first member ∧ member.index < root.index := by
  obtain ⟨first, hs, _, hl⟩ :=
    h.forest.subtree (List.mem_map.mpr ⟨member, h.perm.mem_iff.mpr hm, rfl⟩)
  exact ⟨first, hs, hl⟩

/-- The nodes of the definitions are the nodes below the root, each of them once. -/
theorem traversal_perm : (members.flatMap arena.traversal).Perm (interval 0 root.index) := by
  have hlisted := h.forest.traversal_perm h.tree
  simp only [NodeKind.places, List.map_map, Function.comp_def, List.map_id'] at hlisted
  exact (h.perm.flatMap_right arena.traversal).symm.trans hlisted

/-- No node belongs to two definitions. -/
theorem apart : Pass.Apart (fun member id => id ∈ arena.traversal member) members := by
  have hnodup : (members.flatMap arena.traversal).Nodup := by
    refine h.traversal_perm.nodup_iff.mpr ?_
    exact (List.nodup_range' _).map fun _ _ he => congrArg NodeId.index he
  exact (List.nodup_flatMap.mp hnodup).2.imp fun hd id hid hother => hd hid hother

/-- Each definition is the last node of an interval, and these do not meet. -/
theorem exists_spans : ∃ span : NodeId → Nat,
    (∀ member ∈ members, arena.Subtree .definition (span member) member) ∧
      members.Pairwise fun member other =>
        member.index < span other ∨ other.index < span member := by
  have hspan : ∀ member, ∃ first, member ∈ members → arena.Subtree .definition first member := by
    intro member
    by_cases hm : member ∈ members
    · obtain ⟨first, hs, _⟩ := h.exists_subtree hm
      exact ⟨first, fun _ => hs⟩
    · exact ⟨0, fun hmember => absurd hmember hm⟩
  choose span hs using hspan
  refine ⟨span, hs, List.Pairwise.imp_of_mem (fun {member other} hm ho hd => ?_) h.apart⟩
  have hmember := hs member hm
  have hother := hs other ho
  have hle := hmember.le
  have hle' := hother.le
  have hnot : member ∉ arena.traversal other :=
    hd member ((hmember.mem_traversal_iff h.tree).mpr ⟨hle, Nat.le_refl _⟩)
  have hnot' : other ∉ arena.traversal member := fun hin =>
    hd other hin ((hother.mem_traversal_iff h.tree).mpr ⟨hle', Nat.le_refl _⟩)
  rw [hother.mem_traversal_iff h.tree] at hnot
  rw [hmember.mem_traversal_iff h.tree] at hnot'
  omega

/-- Of the nodes of one definition, passes over the arena do the same. -/
theorem alike_member {σ : Type} {within : σ → Prop} (hm : member ∈ members) :
    Alike (.valuesWithin within) arena.word arena arena fun id => id ∈ arena.traversal member := by
  obtain ⟨first, hs, _⟩ := h.exists_subtree hm
  have hall : Alike (.valuesWithin within) arena.word arena arena fun id => id.index < arena.size :=
    h.tree.alike (Nat.le_refl _) (fun _ _ => rfl) fun _ _ _ => trivial
  have hsize : ∀ id ∈ arena.traversal member, id.index < arena.size := by
    intro id hid
    obtain ⟨_, _, hl⟩ := h.exists_subtree hm
    rw [hs.mem_traversal_iff h.tree] at hid
    have hends := h.ends
    omega
  exact ⟨fun hid => hall.kind (hsize _ hid),
    fun hid hk _ hbelow => hs.mem_traversal_child h.tree hid hk hbelow, .inl fun _ => trivial⟩

/-- A definition is one of its nodes. -/
theorem mem_traversal (hm : member ∈ members) : member ∈ arena.traversal member := by
  obtain ⟨first, hs, _⟩ := h.exists_subtree hm
  exact (hs.mem_traversal_iff h.tree).mpr ⟨hs.le, Nat.le_refl _⟩

/-- Every node below the root belongs to a definition. -/
theorem exists_member (hid : id.index < root.index) : ∃ member ∈ members,
    id ∈ arena.traversal member :=
  List.mem_flatMap.mp (h.traversal_perm.mem_iff.mpr (mem_interval_iff.mpr ⟨Nat.zero_le _, hid⟩))

/-- What is no definition list stands below the root. -/
theorem lt_root {kind : NodeKind} (hk : arena.kind? id = some kind)
    (hn : ∀ members, kind ≠ .definitions members) : id.index < root.index := by
  have hlt := index_lt_size hk
  have hends := h.ends
  have hne : id.index ≠ root.index := by
    intro he
    obtain rfl := NodeId.eq_of_index he
    cases hk.symm.trans h.kind
    exact hn listed rfl
  omega

/-- What a node below the root is bound to stands below the root. -/
theorem lt_root_of_bound {bindings : NodeTable NodeId} {target : NodeId}
    (hbound : Binding.Bound arena bindings) (hid : id.index < root.index)
    (hb : bindings.get? id = some target) : target.index < root.index := by
  have hin : id.index < arena.size := by
    have hends := h.ends
    omega
  obtain ⟨definition, hd⟩ := (hbound id hin).exists_definition hb
  exact h.lt_root (kind?_of_definition? hd) nofun

/-- Below the root nothing stands for something else. -/
theorem kind_eq (hid : id.index < root.index) :
    (arena.reordered members).kind? id = arena.kind? id := by
  rw [kind?_reordered, if_neg]
  intro hroot
  cases hroot.symm.trans h.isRoot
  exact Nat.lt_irrefl _ hid

/-- The root lists the definitions in the other order. -/
theorem kind_root : (arena.reordered members).kind? root = some (.definitions members) := by
  rw [kind?_reordered, if_pos h.isRoot, h.kind, Option.map_some]

/-- Below the root, passes over both arenas do the same. -/
theorem alike {σ : Type} {within : σ → Prop} :
    Alike (.faultsWithin within) arena.word arena (arena.reordered members)
      fun id => id.index < root.index :=
  h.tree.alike (Nat.le_trans (Nat.le_succ _) (Nat.le_of_eq h.ends))
    (fun _ hid => h.kind_eq hid) fun _ _ _ => rfl

end Reorders

end Arena

namespace Sweep

variable {σ : Type} {sweep : Sweep σ} {goal : Nat → Nat → σ → Prop} {arena : Arena}
  {allowed : Diagnostic → Prop} {step : NodeId → Pass σ PUnit} {members : List NodeId} {state : σ}

/-- What a visit of an interval does to it lasts: visits of other intervals leave it alone. -/
structure Lasting (sweep : Sweep σ) (goal : Nat → Nat → σ → Prop) : Prop where
  /-- Other intervals can be visited as before. -/
  ready : ∀ {first last start stop before after}, last ≤ start ∨ stop ≤ first →
    sweep.ready first last before → sweep.done first last before after →
    sweep.ready start stop before → sweep.ready start stop after
  /-- The goal of a visit is reached. -/
  reached : ∀ {first last before after}, sweep.ready first last before →
    sweep.done first last before after → goal first last after
  /-- What was reached elsewhere is kept. -/
  goal : ∀ {first last start stop before after}, last ≤ start ∨ stop ≤ first →
    sweep.ready first last before → sweep.done first last before after →
    goal start stop before → goal start stop after

/-- Intervals that do not meet may be visited in any order. -/
theorem Lasting.runs_forM (hl : sweep.Lasting goal) (span : NodeId → Nat)
    (hv : ∀ member ∈ members, sweep.Visits arena allowed step .definition member)
    (hs : ∀ member ∈ members, arena.Subtree .definition (span member) member)
    (hd : members.Pairwise fun member other =>
      member.index < span other ∨ other.index < span member)
    (hr : ∀ member ∈ members, sweep.ready (span member) (member.index + 1) state) :
    Pass.Runs allowed (members.forM step) state fun _ after =>
      (∀ member ∈ members, goal (span member) (member.index + 1) after) ∧
        ∀ start stop, (∀ member ∈ members, member.index < start ∨ stop ≤ span member) →
          (sweep.ready start stop state → sweep.ready start stop after) ∧
            (goal start stop state → goal start stop after) := by
  induction members generalizing state with
  | nil => simp
  | cons member others ih =>
    obtain ⟨hmember, hothers⟩ := List.pairwise_cons.mp hd
    simp only [List.forM_eq_forM, List.forM_cons, Pass.runs_bind] at ih ⊢
    have hready := hr member List.mem_cons_self
    have hfirst := hv member List.mem_cons_self _ (hs member List.mem_cons_self) state hready
    refine hfirst.mono fun _ between hdone => ?_
    have hrest := ih (fun other ho => hv other (List.mem_cons_of_mem _ ho))
      (fun other ho => hs other (List.mem_cons_of_mem _ ho)) hothers fun other ho =>
        hl.ready (hmember other ho) hready hdone (hr other (List.mem_cons_of_mem _ ho))
    refine hrest.mono fun _ after hafter => ?_
    obtain ⟨hgoals, hlasts⟩ := hafter
    refine ⟨?_, fun start stop ho => ?_⟩
    · intro other ho
      rcases List.mem_cons.mp ho with rfl | ho
      · exact (hlasts _ _ fun found hf => (hmember found hf).symm).2 (hl.reached hready hdone)
      · exact hgoals other ho
    · obtain ⟨hlasting, hkept⟩ := hlasts start stop fun other hm =>
        ho other (List.mem_cons_of_mem _ hm)
      have hapart := ho member List.mem_cons_self
      exact ⟨fun hstart => hlasting (hl.ready hapart hready hdone hstart),
        fun hstart => hkept (hl.goal hapart hready hdone hstart)⟩

end Sweep

variable {arena : Arena} {root : NodeId} {listed members : List NodeId}
  {bindings : NodeTable NodeId}

namespace Binding

/-- What is bound in an interval stays bound. -/
theorem sweep_lasting (lists : List (List NodeId)) :
    (sweep arena lists).Lasting fun first last state => ∀ id : NodeId, first ≤ id.index →
      id.index < last → Settled arena id (state.bindings.get? id) where
  ready ho _ hd hr :=
    ⟨hd.1 ▸ hr.1, fun id hf hl => (hd.2.outside id (by omega)).trans (hr.2 id hf hl)⟩
  reached _ hd := hd.2.inside
  goal ho _ hd hs id hf hl := hd.2.outside id (by omega) ▸ hs id hf hl

/-- In a well-scoped program, a node is bound in one way at most. -/
theorem eq_of_settled {bindings' : NodeTable NodeId}
    (h : ∀ id, Settled arena id (bindings.get? id))
    (h' : ∀ id, Settled arena id (bindings'.get? id)) : bindings' = bindings :=
  NodeTable.ext_get? fun id => Option.ext fun target =>
    ((h' id).binds target).trans ((h id).binds target).symm

/-- If all nodes are settled, the program is well-scoped. -/
theorem wellScoped_of_settled (h : ∀ id, Settled arena id (bindings.get? id)) :
    arena.WellScoped where
  distinct hk hl := (h _).distinct hk hl
  resolves {id kind} hk hr := by
    obtain ⟨target, ht⟩ := Option.isSome_iff_exists.mp ((h id).resolved hk hr)
    exact ⟨target, ((h id).binds target).mp ht⟩

/-- Visits of the top-level definitions in any order settle all nodes. -/
theorem members_run (h : arena.Reorders root listed members) {fuel : Nat}
    (hfuel : root.index < fuel) :
    Pass.Runs (Rejects arena)
      (do members.forM (define arena); members.forM (visitWithin arena fuel)) .initial
      fun _ after => ∀ id, Settled arena id (after.bindings.get? id) := by
  have hsymm : ∀ {id other : NodeId}, (∀ name, arena.Names id name → ¬arena.Names other name) →
      ∀ name, arena.Names other name → ¬arena.Names id name :=
    fun hd name hother hid => hd name hid hother
  have hdefined : Pass.Runs (Rejects arena) (members.forM (define arena)) .initial fun _ after =>
      after.bindings = .empty ∧ after.scopes.enclosing = [] ∧
        Lists arena after.scopes.innermost ([] ++ members) ∧ arena.Distinct ([] ++ members) := by
    refine defineAll_runs (fun hn hw => hn ?_) (fun id hm => ?_) lists_nil .nil
    · exact (hw.distinct h.kind rfl).perm h.perm hsymm
    · obtain ⟨_, hs, _⟩ := h.exists_subtree hm
      exact hs.isSome_definition?
  rw [Pass.runs_bind]
  refine hdefined.mono fun _ defined hstart => ?_
  obtain ⟨hnone, hclosed, hlists, hdistinct⟩ := hstart
  have hmodels : Models arena defined.scopes [listed] := by
    refine .cons (fun name id => (hlists name id).trans (and_congr_left fun _ => ?_)) ?_
    · exact h.perm.mem_iff.symm
    · rw [hclosed]
      exact .nil
  have hunset : ∀ first last, defined.bindings.Unset first last := fun first last =>
    hnone ▸ NodeTable.unset_empty
  have hsees : ∀ member ∈ members, arena.Sees [listed] member := fun member hm =>
    (Arena.Sees.root h.isRoot h.kind).plain h.kind rfl (h.perm.mem_iff.mpr hm)
  obtain ⟨span, hs, hd⟩ := h.exists_spans
  have hvisits : ∀ member ∈ members, (sweep arena [listed]).Visits arena (Rejects arena)
      (visitWithin arena fuel) .definition member := by
    intro member hm
    obtain ⟨_, _, hl⟩ := h.exists_subtree hm
    exact (visitWithin_visits h.tree fuel member [listed] (by omega)).1 .definition rfl
      (hsees member hm)
  have hruns := (sweep_lasting [listed]).runs_forM span hvisits hs hd fun member _ =>
    ⟨hmodels, hunset _ _⟩
  refine hruns.mono fun _ after hafter id => ?_
  obtain ⟨hgoals, hlasts⟩ := hafter
  rcases Nat.lt_or_ge id.index root.index with hlt | hge
  · obtain ⟨member, hm, hid⟩ := h.exists_member hlt
    rw [(hs member hm).mem_traversal_iff h.tree] at hid
    exact hgoals member hm id hid.1 (by omega)
  · have hbehind : ∀ member ∈ members, member.index < id.index ∨ id.index + 1 ≤ span member := by
      intro member hm
      obtain ⟨_, _, hl⟩ := h.exists_subtree hm
      omega
    have hready := (hlasts id.index (id.index + 1) hbehind).1 ⟨hmodels, hunset _ _⟩
    rw [hready.2 id (Nat.le_refl _) (Nat.lt_succ_self _)]
    rcases Nat.eq_or_lt_of_le hge with he | hgt
    · obtain rfl := NodeId.eq_of_index he
      refine .unbound h.kind rfl fun list hl => ?_
      cases hl
      exact hdistinct.perm h.perm.symm hsymm
    · exact .absent (Arena.kind?_eq_none (h.ends ▸ hgt))

/-- Binding does not depend on the order of the top-level definitions. -/
theorem ofArena_reordered (h : arena.Reorders root listed members) :
    Pass.SameSuccess Eq (ofArena arena) (ofArena (arena.reordered members)) := by
  obtain ⟨fuel, hdepth, hfuel⟩ := h.exists_fuel
  let run : Bind Unit := do members.forM (define arena); members.forM (visitWithin arena fuel)
  have hdecides : Pass.SameSuccess Eq (ofArena arena)
      ((Pass.finalState run .initial).map State.bindings) := by
    have hrun := members_run h hfuel
    refine .of_decides arena.WellScoped
      (fun bindings => ∀ id, Settled arena id (bindings.get? id)) (fun bindings hb => ?_)
      (fun _ hb => (ofArena_rejects h.tree hb).2) (fun bindings hb => ?_)
      (fun _ hb => (hrun.of_map_error hb).2) fun _ _ hs hs' => (eq_of_settled hs hs').symm
    · have hsettled := ofArena_settled h.tree hb
      exact ⟨wellScoped_of_settled hsettled, hsettled⟩
    · obtain ⟨_, after, hsettled, rfl⟩ := hrun.of_map_ok hb
      exact ⟨wellScoped_of_settled hsettled, hsettled⟩
  have hroot : (arena.reordered members).root = some root := h.isRoot
  have hbelow : ∀ member ∈ members, member.index < root.index := fun member hm =>
    (h.exists_subtree hm).choose_spec.2
  have hnever : ∀ {p : Prop},
      (∀ diagnostic, (Pass.Comparison.faults : Pass.Comparison State).excuses diagnostic) → p :=
    fun hx => (hx ⟨.internalError "", .origin ""⟩).elim
  have hfollows : Same .faults arena.word arena (fun id => id.index < root.index) run
      (do members.forM (define (arena.reordered members))
          members.forM (visitWithin (arena.reordered members) fuel)) := by
    refine Pass.Follows.bind (.forM fun member hm => ?_) fun _ => .forM fun member hm => ?_
    · exact define_follows h.alike hnever (fun _ _ => trivial) (hbelow member hm)
    · exact visitWithin_follows h.alike hnever (fun _ _ => trivial) fuel (hbelow member hm)
  have hsame : Pass.SameOutcome Eq ((Pass.finalState run .initial).map State.bindings)
      (ofArena (arena.reordered members)) := by
    simp only [ofArena, hroot, visit, Arena.depthBound_reordered, hdepth, visitWithin, visitNode,
      h.kind_root]
    exact (hfollows.sameOutcome .initial trivial).map fun _ _ hs => hs.bindings.symm
  exact hdecides.trans hsame fun _ _ _ => Eq.trans

end Binding

namespace Typing

/-- What is typed in an interval stays typed. -/
theorem sweep_lasting : (sweep arena bindings).Lasting fun first last state =>
    ∀ (id : NodeId) (kind : NodeKind), arena.kind? id = some kind → kind.isTyped = true →
      first ≤ id.index → id.index < last → Checked arena bindings state id kind where
  ready ho _ hd hr :=
    ⟨hd.1 hr.1, fun id _ hk hf hl => (hd.2.outside hk (by omega)).trans (hr.2 id _ hk hf hl)⟩
  reached _ hd _ _ hk htyped hf hl := hd.2.inside hk htyped hf hl
  goal _ _ hd hc id kind hk htyped hf hl := hd.2.checked (hc id kind hk htyped hf hl)

/-- Visits of the top-level definitions in any order type all nodes. -/
theorem members_run (h : arena.Reorders root listed members)
    (hbound : Binding.Bound arena bindings) {fuel : Nat} (hfuel : arena.depthBound = fuel + 1) :
    Pass.Runs (Rejects arena bindings) (members.forM (checkWithin arena bindings fuel)) .initial
      fun _ after => Typed arena bindings after.types := by
  obtain ⟨span, hs, hd⟩ := h.exists_spans
  have hends := h.ends
  have hvisits : ∀ member ∈ members, (sweep arena bindings).Visits arena (Rejects arena bindings)
      (checkWithin arena bindings fuel) .definition member := by
    intro member hm
    obtain ⟨_, _, hl⟩ := h.exists_subtree hm
    exact (within_runs h.tree hbound fuel member (by omega)).2 .definition (.inr rfl)
  have hruns := sweep_lasting.runs_forM span hvisits hs hd fun member _ => ready_initial
  refine hruns.mono fun _ after hafter => ?_
  obtain ⟨hgoals, hlasts⟩ := hafter
  have hsettled : Settled arena bindings after :=
    ((hlasts 0 0 fun member _ => .inr (Nat.zero_le _)).1 ready_initial).1
  have hall : ∀ {id kind}, arena.kind? id = some kind → kind.isTyped = true →
      Checked arena bindings after id kind := by
    intro id kind hk htyped
    have hlt := h.lt_root hk fun _ he => by
      rw [he] at htyped
      cases htyped
    obtain ⟨member, hm, hid⟩ := h.exists_member hlt
    rw [(hs member hm).mem_traversal_iff h.tree] at hid
    exact hgoals member hm id kind hk htyped hid.1 (by omega)
  exact ⟨hsettled.1.sound, fun hk htyped => (hall hk htyped).1,
    fun hk => (hall hk rfl).2 _ _ _ _ rfl⟩

/-- In a program, a node is typed in one way at most. -/
theorem Typed.eq {types types' : NodeTable Ty} (h : Typed arena bindings types)
    (h' : Typed arena bindings types') : types' = types :=
  NodeTable.ext_get? fun _ => Option.ext fun _ =>
    h'.get?_eq_some_iff.trans h.get?_eq_some_iff.symm

/-- Typing does not depend on the order of the top-level definitions. -/
theorem ofArena_reordered (h : arena.Reorders root listed members)
    (hbound : Binding.Bound arena bindings) :
    Pass.SameSuccess Eq (ofArena arena bindings) (ofArena (arena.reordered members) bindings) := by
  obtain ⟨fuel, hdepth, _⟩ := h.exists_fuel
  let run : Check Unit := members.forM (checkWithin arena bindings fuel)
  have hdecides : Pass.SameSuccess Eq (ofArena arena bindings)
      ((Pass.finalState run .initial).map State.types) := by
    have hrun := members_run h hbound hdepth
    refine .of_decides (WellTyped arena bindings) (Typed arena bindings) (fun types ht => ?_)
      (fun _ ht => (ofArena_rejects h.tree hbound ht).2) (fun types ht => ?_)
      (fun _ ht => (hrun.of_map_error ht).2) fun _ _ ht ht' => (ht.eq ht').symm
    · have htyped := ofArena_typed h.tree hbound ht
      exact ⟨htyped.wellTyped, htyped⟩
    · obtain ⟨_, after, htyped, rfl⟩ := hrun.of_map_ok ht
      exact ⟨htyped.wellTyped, htyped⟩
  have hroot : (arena.reordered members).root = some root := h.isRoot
  have hfollows : Same .faults run
      (members.forM (checkWithin (arena.reordered members) bindings fuel)) := by
    refine .forM fun member hm => ?_
    obtain ⟨_, _, hl⟩ := h.exists_subtree hm
    exact (checks_same h.alike (fun _ => trivial) (h.lt_root_of_bound hbound)
      (.refl fuel)).2 member hl
  have hsame : Pass.SameOutcome Eq ((Pass.finalState run .initial).map State.types)
      (ofArena (arena.reordered members) bindings) := by
    simp only [ofArena, hroot, check, Arena.depthBound_reordered, hdepth, checkWithin, nodeStep,
      h.kind_root]
    exact (hfollows.sameOutcome rfl trivial).map fun _ _ hs => congrArg State.types hs
  exact hdecides.trans hsame fun _ _ _ => Eq.trans

end Typing

end Pins
