import Pins.Proofs.HasType

/-!
# Looking types up

The types of definitions and of written types are looked up on demand, and a lookup may run into
another one. A lookup that is nested in others never touches a node they are at work on: every node
of a written type belongs to one definition (`Arena.Owns.unique`), and a definition whose lookup has
begun is not looked up again. The number of definitions whose lookup has not begun bounds how deep
lookups are nested, so the bound of the pass is never reached.

Every lookup that is under way waits for the one that is nested deepest (`Awaited`). A definition
that is met while it is looked up therefore gets its type from itself, and has none.
-/

namespace Pins

/-- The written type that a definition has of its own: the result type of a function. -/
def Definition.typeRoot : Definition → NodeId
  | function _ _ result _ => result
  | var _ written => written
  | type _ written => written
  | parameter _ written => written

theorem Definition.typeRoot_of_written? {definition : Definition} {written : NodeId}
    (h : definition.written? = some written) : definition.typeRoot = written := by
  cases definition <;> cases h <;> rfl

/-- Below a written type or a parameter there are only written types, from which its type comes. -/
theorem Place.places_eq_sources {place : Place} {kind : NodeKind}
    (hp : place = .type ∨ place = .parameter) (ha : place.admits kind = true) :
    kind.places = kind.sources.map (.type, ·) := by
  cases kind with
  | type item => rfl
  | definition item =>
    cases item with
    | parameter name written => rfl
    | function | var | type => rcases hp with rfl | rfl <;> cases ha
  | definitions | expression => rcases hp with rfl | rfl <;> cases ha

namespace Arena

variable {arena : Arena} {id owner node : NodeId} {first : Nat} {place : Place}
  {definition : Definition}

/-- A node lies in the written type that a definition has of its own. -/
def Owns (arena : Arena) (owner node : NodeId) : Prop :=
  ∃ definition start, arena.kind? owner = some (.definition definition) ∧
    arena.Subtree .type start definition.typeRoot ∧ start ≤ node.index ∧
    node.index ≤ definition.typeRoot.index

/-- The written type of a definition stands in front of it, and the numbers between them are those
of further subtrees. -/
theorem Subtree.typeRoot (h : arena.Subtree place first id)
    (hk : arena.kind? id = some (.definition definition)) :
    ∃ start rest, first ≤ start ∧ arena.Subtree .type start definition.typeRoot ∧
      arena.Forest (definition.typeRoot.index + 1) rest id.index := by
  obtain ⟨kind, hk', _, _, hf⟩ := subtree_iff.mp h
  cases hk.symm.trans hk'
  cases definition with
  | function name parameters result body =>
    simp only [NodeKind.places, forest_append_iff, forest_cons_iff, forest_nil_iff] at hf
    obtain ⟨middle, hp, hres, hbody, hend⟩ := hf
    exact ⟨middle, [(.expression, body)], hp.le, hres,
      forest_cons_iff.mpr ⟨hbody, forest_nil_iff.mpr hend⟩⟩
  | var name written | type name written | parameter name written =>
    obtain ⟨hw, hend⟩ := forest_cons_iff.mp hf
    exact ⟨first, [], Nat.le_refl _, hw, hend⟩

/-- A node that a definition owns is a written type. -/
theorem Owns.kind (h : arena.Owns owner node) :
    ∃ written, arena.kind? node = some (.type written) := by
  obtain ⟨definition, start, _, hs, hstart, hroot⟩ := h
  exact Forest.types hs (by simp) hstart (by omega)

/-- A subtree that stands between a definition and its written type begins behind the latter. -/
theorem IsTree.typeRoot_lt (ht : arena.IsTree) {start : Nat}
    (hk : arena.kind? id = some (.definition definition)) (hs : arena.Subtree place start node)
    (hl : definition.typeRoot.index < node.index) (hr : node.index < id.index) :
    definition.typeRoot.index < start := by
  obtain ⟨_, _, hid⟩ := ht.exists_subtree hk
  obtain ⟨_, rest, _, _, hf⟩ := hid.typeRoot hk
  obtain ⟨_, begin', hsub, hbegin⟩ := hf.exists_subtree hl hr
  have hsame := hs.first_unique hsub
  omega

/-- Of two written types of definitions with a common node, none is in front of the other. -/
theorem IsTree.typeRoot_le (ht : arena.IsTree) {second : Definition} {start : Nat}
    (hk : arena.kind? owner = some (.definition definition))
    (hn : node.index ≤ definition.typeRoot.index)
    (hs : arena.Subtree .type start second.typeRoot) (hstart : start ≤ node.index) :
    second.typeRoot.index ≤ definition.typeRoot.index := by
  rcases Nat.lt_or_ge definition.typeRoot.index second.typeRoot.index with hlt | hge
  · obtain ⟨_, _, howner⟩ := ht.exists_subtree hk
    obtain ⟨_, _, _, _, hf⟩ := howner.typeRoot hk
    have hle := hf.le
    rcases Nat.lt_or_ge second.typeRoot.index owner.index with hin | hout
    · have hbehind := ht.typeRoot_lt hk hs hlt hin
      omega
    · obtain ⟨written, hw⟩ := Forest.types hs (by simp) (by omega) (Nat.lt_succ_of_le hout)
      cases hk.symm.trans hw
  · exact hge

/-- Two definitions with the same written type are one. -/
theorem IsTree.owner_le (ht : arena.IsTree) {other : NodeId} {second : Definition}
    (hk : arena.kind? owner = some (.definition definition))
    (hk' : arena.kind? other = some (.definition second))
    (hr : definition.typeRoot = second.typeRoot) : other.index ≤ owner.index := by
  rcases Nat.lt_or_ge owner.index other.index with hlt | hge
  · obtain ⟨_, first, howner⟩ := ht.exists_subtree hk
    obtain ⟨start, _, hfirst, hs, hf⟩ := howner.typeRoot hk
    have hsl := hs.le
    have hle := hf.le
    have hbehind := ht.typeRoot_lt hk' howner (by rw [← hr]; omega) hlt
    rw [← hr] at hbehind
    omega
  · exact hge

/-- A node lies in the written type of one definition only. -/
theorem Owns.unique (ht : arena.IsTree) {other : NodeId} (h : arena.Owns owner node)
    (h' : arena.Owns other node) : owner = other := by
  obtain ⟨first, start, hk, hs, hstart, hroot⟩ := h
  obtain ⟨second, start', hk', hs', hstart', hroot'⟩ := h'
  have hroots : first.typeRoot = second.typeRoot := NodeId.eq_of_index <|
    Nat.le_antisymm (ht.typeRoot_le hk' hroot' hs hstart)
      (ht.typeRoot_le hk hroot hs' hstart')
  exact NodeId.eq_of_index <|
    Nat.le_antisymm (ht.owner_le hk' hk hroots.symm) (ht.owner_le hk hk' hroots)

end Arena

namespace Typing

variable {arena : Arena} {bindings : NodeTable NodeId} {id node owner : NodeId} {type : Ty}
  {first last start stop : Nat} {state before between after final : State}

/-- The faults that typing may find in a bound program. -/
def Refuses : Fault → Prop
  | .cyclicTypeDefinition _ | .typeTooLarge _ | .operandTypeMismatch .. | .indexOnNonArray _
  | .assignmentTypeMismatch .. | .nonBooleanCondition _ | .nonIntegerLoopBound ..
  | .argumentTypeMismatch .. | .argumentCountMismatch .. | .returnTypeMismatch .. => True
  | _ => False

/-- Typing may stop at a fault of types, and only in a program that is not well-typed. -/
structure Rejects (arena : Arena) (bindings : NodeTable NodeId) (diagnostic : Diagnostic) :
    Prop where
  /-- The fault is one of types. -/
  refuses : Refuses diagnostic.fault
  /-- The program is not well-typed. -/
  illTyped : ¬WellTyped arena bindings
  /-- A cycle is reported at a type definition whose type comes from itself. -/
  cyclic : ∀ name, diagnostic.fault = .cyclicTypeDefinition name →
    ∃ id written, arena.kind? id = some (.definition (.type name written)) ∧
      diagnostic.position = arena.position id ∧ Relation.TransGen (Feeds arena bindings) id id

/-- Stopping at a node is the fault it stops for. -/
@[simp] theorem runs_fail {α : Type} {allowed : Diagnostic → Prop} {fault : Fault}
    {promised : α → State → Prop} :
    (fail arena id fault : Check α).Runs allowed state promised ↔
      allowed ⟨fault, arena.position id⟩ := Iff.rfl

/-- The faults of types other than a cycle. -/
def Mismatches : Fault → Prop
  | .typeTooLarge _ | .operandTypeMismatch .. | .indexOnNonArray _ | .assignmentTypeMismatch ..
  | .nonBooleanCondition _ | .nonIntegerLoopBound .. | .argumentTypeMismatch ..
  | .argumentCountMismatch .. | .returnTypeMismatch .. => True
  | _ => False

/-- Typing may stop at a program that is not well-typed. A fault other than a cycle says no more. -/
theorem runs_mismatch {α : Type} {fault : Fault} {promised : α → State → Prop}
    (hf : Mismatches fault) (hw : ¬WellTyped arena bindings) :
    (fail arena id fault : Check α).Runs (Rejects arena bindings) state promised := by
  refine runs_fail.mpr ⟨?_, hw, fun name he => ?_⟩
  · unfold Mismatches at hf
    split at hf
    all_goals first | exact trivial | exact hf.elim
  · simp only at he
    subst he
    exact hf.elim

/-- The lookup of a definition has begun and has not ended. -/
def State.Busy (state : State) (id : NodeId) : Prop :=
  (state.begun.get? id).isSome ∧ state.types.get? id = none

/-- The number of nodes whose lookup has not begun. -/
def State.pending (arena : Arena) (state : State) : Nat :=
  arena.ids.countP fun id => (state.begun.get? id).isNone

/-- Types are right, and a node has one only behind what it depends on. -/
structure Good (arena : Arena) (bindings : NodeTable NodeId) (state : State) : Prop where
  /-- The types found are those of their nodes. -/
  sound : ∀ {id type}, state.types.get? id = some type → HasType arena bindings id type
  /-- A definition has a type only if its lookup has begun. -/
  begun : ∀ {id definition}, arena.kind? id = some (.definition definition) →
    (state.types.get? id).isSome → (state.begun.get? id).isSome
  /-- What the type of a definition or a written type comes from has types. -/
  closed : ∀ {id kind}, arena.kind? id = some kind → (state.types.get? id).isSome →
    ∀ source ∈ kind.sources, (state.types.get? source).isSome

/-- What a lookup adds to a state: it touches no expression, and of what the definitions own whose
lookup is under way, only nodes of an interval. -/
structure Grows (arena : Arena) (first last : Nat) (before after : State) : Prop where
  /-- Types stay. -/
  types : ∀ {id type}, before.types.get? id = some type → after.types.get? id = some type
  /-- Lookups that have begun stay begun. -/
  begun : ∀ {id}, (before.begun.get? id).isSome → (after.begun.get? id).isSome
  /-- The lookups that are under way are the same. -/
  busy : ∀ {id definition}, arena.kind? id = some (.definition definition) →
    (after.Busy id ↔ before.Busy id)
  /-- Expressions get no types. -/
  expression : ∀ {id expression}, arena.kind? id = some (.expression expression) →
    after.types.get? id = before.types.get? id
  /-- What is owned by a definition that is looked up gets a type in the interval only. -/
  owned : ∀ {owner node}, before.Busy owner → arena.Owns owner node →
    node.index < first ∨ last ≤ node.index → after.types.get? node = before.types.get? node

/-- A lookup ends with the type of its node, which is kept. -/
def LookedUp (arena : Arena) (bindings : NodeTable NodeId) (first last : Nat) (id : NodeId)
    (before : State) (type : Ty) (after : State) : Prop :=
  Good arena bindings after ∧ Grows arena first last before after ∧
    after.types.get? id = some type

theorem Owns.isDefinition (h : arena.Owns owner node) :
    ∃ definition, arena.kind? owner = some (.definition definition) := by
  obtain ⟨definition, _, hk, _⟩ := h
  exact ⟨definition, hk⟩

namespace Grows

theorem refl (state : State) : Grows arena first last state state :=
  ⟨id, id, fun _ => Iff.rfl, fun _ => rfl, fun _ _ _ => rfl⟩

theorem trans (hf : Grows arena first last before between)
    (hs : Grows arena first last between after) : Grows arena first last before after where
  types h := hs.types (hf.types h)
  begun h := hs.begun (hf.begun h)
  busy h := (hs.busy h).trans (hf.busy h)
  expression h := (hs.expression h).trans (hf.expression h)
  owned hb ho hn := by
    obtain ⟨_, hk⟩ := Owns.isDefinition ho
    exact (hs.owned ((hf.busy hk).mpr hb) ho hn).trans (hf.owned hb ho hn)

/-- The interval may be taken larger. -/
theorem mono (h : Grows arena first last before after) (hf : start ≤ first) (hl : last ≤ stop) :
    Grows arena start stop before after :=
  { h with owned := fun hb ho hn => h.owned hb ho (by omega) }

/-- An empty interval may be replaced by any other one. -/
theorem of_empty (h : Grows arena 0 0 before after) : Grows arena start stop before after :=
  { h with owned := fun hb ho _ => h.owned hb ho (Or.inr (Nat.zero_le _)) }

/-- The number of lookups that have not begun does not grow. -/
theorem pending_le (h : Grows arena first last before after) :
    after.pending arena ≤ before.pending arena := by
  refine List.countP_mono_left fun id _ hn => ?_
  cases hb : (before.begun.get? id).isSome with
  | false => simpa using hb
  | true => simp_all [Option.isSome_iff_ne_none.mp (h.begun hb)]

end Grows

/-- A lookup that begins is noted at its definition. -/
theorem begun_beginning (hn : state.begun.get? id = none) (other : NodeId) :
    (state.beginning id).begun.get? other =
      if other = id then some () else state.begun.get? other := by
  obtain ⟨begun, hs⟩ := NodeTable.exists_store? () hn
  simp [State.beginning, hs, NodeTable.get?_store? hs]

/-- Beginning a lookup makes no other one busy. -/
theorem busy_beginning (hn : state.begun.get? id = none) (ho : owner ≠ id) :
    (state.beginning id).Busy owner ↔ state.Busy owner := by
  simp only [State.Busy, begun_beginning hn, if_neg ho]
  rfl

/-- Every lookup that is under way waits for the type of a node. -/
def Awaited (arena : Arena) (bindings : NodeTable NodeId) (state : State) (id : NodeId) : Prop :=
  ∀ owner definition, arena.kind? owner = some (.definition definition) → state.Busy owner →
    Relation.TransGen (Feeds arena bindings) id owner

namespace Awaited

/-- What waits for a node waits for what feeds it. -/
theorem below (h : Awaited arena bindings state id) (hf : Feeds arena bindings node id) :
    Awaited arena bindings state node :=
  fun owner definition hk hb => .trans (.single hf) (h owner definition hk hb)

/-- A lookup that begins waits for what feeds its definition. -/
theorem beginning (h : Awaited arena bindings state id) (hn : state.begun.get? id = none)
    (hf : Feeds arena bindings node id) : Awaited arena bindings (state.beginning id) node := by
  intro owner definition hk hb
  by_cases ho : owner = id
  · exact ho ▸ .single hf
  · exact h.below hf owner definition hk ((busy_beginning hn ho).mp hb)

/-- Lookups that came to an end wait no more. -/
theorem grows (h : Awaited arena bindings before id) (hg : Grows arena first last before after) :
    Awaited arena bindings after id :=
  fun owner definition hk hb => h owner definition hk ((hg.busy hk).mp hb)

/-- A type definition that waits for itself is part of a cycle, and has no type. -/
theorem rejects {definition : Definition} (h : Awaited arena bindings state id)
    (hk : arena.kind? id = some (.definition definition)) (hb : state.Busy id)
    (hd : ∃ name written, definition = .type name written) :
    Rejects arena bindings ⟨cycleFault definition, arena.position id⟩ := by
  obtain ⟨name, written, rfl⟩ := hd
  have hcycle := h id _ hk hb
  refine ⟨trivial, fun hw => ?_, fun found hf => ?_⟩
  · obtain ⟨type, ht⟩ := hw.total hk rfl
    exact ht.not_transGen hcycle
  · cases hf
    exact ⟨id, written, hk, rfl, hcycle⟩

end Awaited

/-- Beginning a lookup leaves one less to begin. -/
theorem pending_beginning (hid : id.index < arena.size) (hn : state.begun.get? id = none) :
    (state.beginning id).pending arena + 1 ≤ state.pending arena := by
  have hm : id ∈ arena.ids := List.mem_map.mpr ⟨id.index, List.mem_range.mpr hid, rfl⟩
  obtain ⟨front, rest, he⟩ := List.append_of_mem hm
  have hle : ∀ ids : List NodeId,
      (ids.countP fun other => ((state.beginning id).begun.get? other).isNone) ≤
        ids.countP fun other => (state.begun.get? other).isNone := by
    intro ids
    refine List.countP_mono_left fun other _ h => ?_
    rw [begun_beginning hn] at h
    split at h <;> simp_all
  have hfront := hle front
  have hrest := hle rest
  simp only [State.pending, he, List.countP_append, List.countP_cons, begun_beginning hn id, hn,
    if_true, Option.isNone_some, Option.isNone_none, Bool.false_eq_true, if_false]
  omega

/-- Keeping the type of a node changes nothing else. -/
theorem record_runs {allowed : Diagnostic → Prop} (hn : state.types.get? id = none) :
    (record arena id type).Runs allowed state fun value after =>
      value = type ∧ after.begun = state.begun ∧
        ∀ other, after.types.get? other = if other = id then some type else
          state.types.get? other := by
  obtain ⟨types, hs⟩ := NodeTable.exists_store? type hn
  simp only [record, Pass.runs_bind, Pass.runs_get, hs, Pass.runs_set, Pass.runs_pure]
  exact ⟨trivial, trivial, NodeTable.get?_store? hs⟩

/-- A state stays good when a node gets its type. -/
theorem Good.store {kind : NodeKind} (h : Good arena bindings state)
    (hk : arena.kind? id = some kind) (ht : HasType arena bindings id type)
    (hbegun : ∀ definition, kind = .definition definition → (state.begun.get? id).isSome)
    (hsources : ∀ source ∈ kind.sources, (state.types.get? source).isSome)
    (hb : after.begun = state.begun)
    (hs : ∀ other, after.types.get? other = if other = id then some type else
      state.types.get? other) : Good arena bindings after where
  sound {other found} hf := by
    rw [hs] at hf
    split at hf
    · next he => cases hf; exact he ▸ ht
    · exact h.sound hf
  begun {other definition} hk' hf := by
    rw [hb]
    rw [hs] at hf
    split at hf
    · next he =>
      subst he
      exact hbegun definition (Option.some.inj (hk.symm.trans hk'))
    · exact h.begun hk' hf
  closed {other kind'} hk' hf source hm := by
    have hkept : (state.types.get? source).isSome := by
      rw [hs] at hf
      split at hf
      · next he =>
        subst he
        exact hsources source (by rwa [Option.some.inj (hk.symm.trans hk')])
      · exact h.closed hk' hf source hm
    rw [hs]
    split
    · rfl
    · exact hkept

/-- A written type that gets its type is a lookup of an interval with it. -/
theorem grows_store {written : WrittenType} (hk : arena.kind? id = some (.type written))
    (hn : state.types.get? id = none) (hb : after.begun = state.begun)
    (hs : ∀ other, after.types.get? other = if other = id then some type else
      state.types.get? other) (hf : first ≤ id.index) (hl : id.index < last) :
    Grows arena first last state after where
  types {other found} h := by
    have hother : other ≠ id := by
      rintro rfl
      simp [hn] at h
    rw [hs, if_neg hother]
    exact h
  begun h := by rwa [hb]
  busy {other definition} h := by
    have hother : other ≠ id := by
      rintro rfl
      cases hk.symm.trans h
    simp only [State.Busy, hb, hs, if_neg hother]
  expression {other expression} h := by
    have hother : other ≠ id := by
      rintro rfl
      cases hk.symm.trans h
    rw [hs, if_neg hother]
  owned {owner node} _ _ ho := by
    have hother : node ≠ id := by
      rintro rfl
      omega
    rw [hs, if_neg hother]

/-- A lookup that finds the type of its node kept ends at once. -/
theorem LookedUp.refl (h : Good arena bindings state) (ht : state.types.get? id = some type) :
    LookedUp arena bindings first last id state type state :=
  ⟨h, .refl state, ht⟩

/-- The lookup of a definition begins without changing any type. -/
theorem good_beginning (h : Good arena bindings state) (hn : state.begun.get? id = none) :
    Good arena bindings (state.beginning id) :=
  { h with
    begun := fun hk ht => by
      rw [begun_beginning hn]
      split
      · rfl
      · exact h.begun hk ht }

/-- A definition whose lookup has not begun has no type. -/
theorem Good.untyped {definition : Definition} (h : Good arena bindings state)
    (hk : arena.kind? id = some (.definition definition)) (hn : state.begun.get? id = none) :
    state.types.get? id = none := by
  cases ht : state.types.get? id with
  | none => rfl
  | some found =>
    have hbegun := h.begun hk (by simp [ht])
    simp [hn] at hbegun

/-- The lookup of a definition that begins is under way. -/
theorem Good.busy_beginning {definition : Definition} (h : Good arena bindings state)
    (hk : arena.kind? id = some (.definition definition)) (hn : state.begun.get? id = none) :
    (state.beginning id).Busy id :=
  ⟨by simp [begun_beginning hn], h.untyped hk hn⟩

/-- A lookup that began and ends with the type of its definition is under way no more. What it
visited belongs to the definition, so it touched nothing else that is under way. -/
theorem grows_finish (ht : arena.IsTree) {definition : Definition}
    (hk : arena.kind? id = some (.definition definition)) (hn : state.begun.get? id = none)
    (htypes : state.types.get? id = none)
    (hgrows : Grows arena first last (state.beginning id) after)
    (howns : ∀ node : NodeId, first ≤ node.index → node.index < last → arena.Owns id node)
    (hb : final.begun = after.begun)
    (hs : ∀ other, final.types.get? other = if other = id then some type else
      after.types.get? other) : Grows arena 0 0 state final where
  types {other found} hf := by
    have hother : other ≠ id := by
      rintro rfl
      simp [htypes] at hf
    rw [hs, if_neg hother]
    exact hgrows.types hf
  begun {other} hbegun := by
    rw [hb]
    refine hgrows.begun ?_
    rw [begun_beginning hn]
    split
    · rfl
    · exact hbegun
  busy {other second} hk' := by
    by_cases he : other = id
    · subst he
      simp [State.Busy, hs, hn]
    · have hsame := (hgrows.busy hk').trans (busy_beginning hn he)
      simpa only [State.Busy, hb, hs, if_neg he] using hsame
  expression {other expression} hk' := by
    have hother : other ≠ id := by
      rintro rfl
      cases hk.symm.trans hk'
    rw [hs, if_neg hother]
    exact hgrows.expression hk'
  owned {owner node} hbusy ho _ := by
    have howner : owner ≠ id := by
      rintro rfl
      simp [State.Busy, hn] at hbusy
    have hnode : node ≠ id := by
      rintro rfl
      obtain ⟨_, hw⟩ := ho.kind
      cases hk.symm.trans hw
    have houtside : ¬(first ≤ node.index ∧ node.index < last) := fun hin =>
      howner (ho.unique ht (howns node hin.1 hin.2))
    rw [hs, if_neg hnode]
    exact hgrows.owned ((busy_beginning hn howner).mpr hbusy) ho (by omega)

/-- The lookup of a definition that has begun ends with its type, if it has found the types this
one comes from without touching anything else that is under way. -/
theorem finish_runs (ht : arena.IsTree) {definition : Definition} (hg : Good arena bindings state)
    (hn : state.begun.get? id = none) (hk : arena.kind? id = some (.definition definition))
    (hgood : Good arena bindings after)
    (hgrows : Grows arena first last (state.beginning id) after)
    (howns : ∀ node : NodeId, first ≤ node.index → node.index < last → arena.Owns id node)
    (hsources : ∀ source ∈ (NodeKind.definition definition).sources,
      (after.types.get? source).isSome) (htype : HasType arena bindings id type) :
    (record arena id type).Runs (Rejects arena bindings) after fun value final =>
      LookedUp arena bindings 0 0 id state value final := by
  have hstill : after.Busy id := (hgrows.busy hk).mpr (hg.busy_beginning hk hn)
  refine (record_runs hstill.2).mono fun value final hr => ?_
  obtain ⟨rfl, hb, hs⟩ := hr
  exact ⟨hgood.store hk htype (fun _ _ => hstill.1) hsources hb hs,
    grows_finish ht hk hn (hg.untyped hk hn) hgrows howns hb hs, by simp [hs]⟩

/-- The step of a definition hands its type on, stops in a cycle of type definitions, or begins the
lookup and ends with what `find` finds. -/
theorem definitionStep_runs {ofDefinition ofWritten : NodeId → Check Ty} {definition : Definition}
    (hg : Good arena bindings state) (hk : arena.kind? id = some (.definition definition))
    (hcycle : state.Busy id → Rejects arena bindings ⟨cycleFault definition, arena.position id⟩)
    (hunvisited : state.begun.get? id = none →
      Pass.Runs (Rejects arena bindings) (do
        let type ← match definition with
          | .function _ parameters result _ => do
            let parameters ← parameters.mapM ofDefinition
            let result ← ofWritten result
            pure (.function parameters result)
          | .var _ written => ofWritten written
          | .type _ written => ofWritten written
          | .parameter _ written => ofWritten written
        record arena id type) (state.beginning id) (LookedUp arena bindings 0 0 id state)) :
    (definitionStep arena ofDefinition ofWritten id).Runs (Rejects arena bindings) state
      (LookedUp arena bindings 0 0 id state) := by
  have hdefinition : arena.definition? id = some definition := by
    simp [Arena.definition?, hk]
  simp only [definitionStep, hdefinition, Pass.runs_bind, Pass.runs_get]
  cases hb : state.begun.get? id with
  | none =>
    have hrun := hunvisited hb
    simp only [State.resolution, hb, Pass.runs_bind, Pass.runs_modify]
    cases definition <;> simpa only [Pass.runs_bind] using hrun
  | some begun =>
    cases ht : state.types.get? id with
    | some type =>
      simp only [State.resolution, hb, ht, Pass.runs_pure]
      exact .refl hg ht
    | none =>
      have hbusy : state.Busy id := ⟨by simp [hb], ht⟩
      simpa [State.resolution, hb, ht] using hcycle hbusy

/-- The lookup of a definition that keeps a value is that of its written type. -/
theorem storageStep_runs {ofDefinition ofWritten : NodeId → Check Ty} {definition : Definition}
    {written : NodeId} (ht : arena.IsTree) (hg : Good arena bindings state)
    (hk : arena.kind? id = some (.definition definition))
    (hw : definition.written? = some written)
    (hcycle : state.Busy id → Rejects arena bindings ⟨cycleFault definition, arena.position id⟩)
    (hwritten : ∀ start, arena.Subtree .type start written →
      (∀ node : NodeId, start ≤ node.index → node.index < written.index + 1 →
        arena.Owns id node) → state.begun.get? id = none →
      (ofWritten written).Runs (Rejects arena bindings) (state.beginning id)
        (LookedUp arena bindings start (written.index + 1) written (state.beginning id))) :
    (definitionStep arena ofDefinition ofWritten id).Runs (Rejects arena bindings) state
      (LookedUp arena bindings 0 0 id state) := by
  refine definitionStep_runs hg hk hcycle fun hn => ?_
  obtain ⟨_, _, hid⟩ := ht.exists_subtree hk
  obtain ⟨start, _, _, hs, _⟩ := hid.typeRoot hk
  have hroot := Definition.typeRoot_of_written? hw
  have howns : ∀ node : NodeId, start ≤ node.index → node.index < written.index + 1 →
      arena.Owns id node := fun node hl hr =>
    ⟨definition, start, hk, hs, hl, by rw [hroot]; omega⟩
  have hrun := hwritten start (hroot ▸ hs) howns hn
  have hfinish : ∀ type after,
      LookedUp arena bindings start (written.index + 1) written (state.beginning id) type after →
      (record arena id type).Runs (Rejects arena bindings) after
        (LookedUp arena bindings 0 0 id state) := by
    intro type after hl
    refine finish_runs ht hg hn hk hl.1 hl.2.1 howns ?_ (.storage hk hw (hl.1.sound hl.2.2))
    rw [NodeKind.sources_of_written? hw]
    simp [hl.2.2]
  cases definition with
  | function => cases hw
  | var | type | parameter =>
    cases hw
    rw [Pass.runs_bind]
    exact hrun.mono hfinish

/-- The lookup of a written type ends with its type, if the types this one comes from were found in
front of it: the definition that owns it is looked up, so the node still has no type. -/
theorem finishWritten_runs {written : WrittenType} (hk : arena.kind? id = some (.type written))
    (hle : start ≤ id.index) (howned : arena.Owns owner id) (hbusy : state.Busy owner)
    (hn : state.types.get? id = none) (hgood : Good arena bindings between)
    (hgrows : Grows arena start id.index state between) (htype : HasType arena bindings id type)
    (hsources : ∀ source ∈ (NodeKind.type written).sources,
      (between.types.get? source).isSome) :
    (record arena id type).Runs (Rejects arena bindings) between
      (LookedUp arena bindings start (id.index + 1) id state) := by
  have hnone : between.types.get? id = none :=
    (hgrows.owned hbusy howned (Or.inr (Nat.le_refl _))).trans hn
  refine (record_runs hnone).mono fun value after hr => ?_
  obtain ⟨rfl, hb, hstored⟩ := hr
  refine ⟨hgood.store hk htype (fun _ he => by cases he) hsources hb hstored, ?_,
    by simp [hstored]⟩
  refine (hgrows.mono (Nat.le_refl _) (Nat.le_succ _)).trans ?_
  exact grows_store hk hnone hb hstored hle (Nat.lt_succ_self _)

/-- A written type is looked up through those below it and through the definition it is bound to,
all of which leave the node itself alone as long as its definition is looked up. -/
theorem writtenStep_runs {ofDefinition ofWritten : NodeId → Check Ty}
    (hbound : Binding.Bound arena bindings) (hg : Good arena bindings state)
    (hs : arena.Subtree .type start id)
    (howns : ∀ node : NodeId, start ≤ node.index → node.index < id.index + 1 →
      arena.Owns owner node) (hbusy : state.Busy owner)
    (helement : ∀ element, element.index < id.index → arena.Subtree .type start element →
      Feeds arena bindings element id →
      (ofWritten element).Runs (Rejects arena bindings) state
        (LookedUp arena bindings start (element.index + 1) element state))
    (hdefinition : ∀ target name written,
      arena.kind? target = some (.definition (.type name written)) →
      Feeds arena bindings target id →
      (ofDefinition target).Runs (Rejects arena bindings) state
        (LookedUp arena bindings 0 0 target state)) :
    (writtenStep arena bindings ofDefinition ofWritten id).Runs (Rejects arena bindings) state
      (LookedUp arena bindings start (id.index + 1) id state) := by
  have hle := hs.le
  obtain ⟨kind, hk, ha, _, hf⟩ := Arena.subtree_iff.mp hs
  cases kind with
  | definitions | definition | expression => simp [Place.admits] at ha
  | type written =>
    have hwritten : arena.type? id = some written := by simp [Arena.type?, hk]
    simp only [writtenStep, memoized, Pass.runs_bind, Pass.runs_get]
    cases hn : state.types.get? id with
    | some type => exact .refl hg hn
    | none =>
      have howned := howns id hle (Nat.lt_succ_self _)
      cases written with
      | atom word =>
        simp only [hwritten]
        exact finishWritten_runs hk hle howned hbusy hn hg (.refl state) (.atom hk)
          (by simp [NodeKind.sources, WrittenType.children])
      | array length element =>
        obtain ⟨he, hend⟩ := Arena.forest_cons_iff.mp hf
        have hend : element.index + 1 = id.index := Arena.forest_nil_iff.mp hend
        simp only [hwritten, Pass.runs_bind]
        have hfeeds : Feeds arena bindings element id :=
          ⟨_, hk, .inl (by simp [NodeKind.sources, WrittenType.children])⟩
        refine (helement element (by omega) he hfeeds).mono fun inner between hl => ?_
        obtain ⟨hgood, hgrows, hkept⟩ := hl
        split
        · next hsize =>
          rw [hend] at hgrows
          have hbytes := (Ty.isSome_size?_array_iff (hgood.sound hkept).isMeasured).mp hsize
          refine finishWritten_runs hk hle howned hbusy hn hgood hgrows
            (.array hk (hgood.sound hkept) hbytes) ?_
          simp [NodeKind.sources, WrittenType.children, hkept]
        · next hlarge =>
          refine runs_mismatch trivial fun hw => hlarge ?_
          obtain ⟨type, htype⟩ := hw.total hk rfl
          obtain ⟨found, hfound, hbytes, _⟩ := htype.derives hk
          rw [Ty.isSome_size?_array_iff (hgood.sound hkept).isMeasured,
            (hgood.sound hkept).unique hfound]
          exact hbytes
      | name word =>
        have hright := hbound id (Arena.index_lt_size hk)
        simp only [Binding.BoundRight, hk, Option.bind_some, NodeKind.accepted?] at hright
        obtain ⟨target, definition, hb, hd, hkind⟩ := hright
        simp only [hwritten, hb, Pass.runs_bind]
        cases definition with
        | function | var | parameter => simp [Definition.kind] at hkind
        | type name inner =>
          have htarget := Arena.kind?_of_definition? hd
          have hfeeds : Feeds arena bindings target id := ⟨_, hk, .inr ⟨word, rfl, hb⟩⟩
          refine (hdefinition target name inner htarget hfeeds).mono fun found between hl => ?_
          obtain ⟨hgood, hgrows, hkept⟩ := hl
          exact finishWritten_runs hk hle howned hbusy hn hgood hgrows.of_empty
            (.typeName hk hb (hgood.sound hkept)) (by simp [NodeKind.sources, WrittenType.children])

/-- Every lookup of a definition that keeps a value, and of a written type of a definition that is
looked up, ends well if its bound covers the lookups that have not begun. -/
theorem lookups_run (ht : arena.IsTree) (hbound : Binding.Bound arena bindings) : ∀ fuel : Nat,
    (∀ id definition written state, arena.kind? id = some (.definition definition) →
      definition.written? = some written → Good arena bindings state →
      (state.Busy id → ∃ name written, definition = .type name written) →
      Awaited arena bindings state id →
      state.pending arena * (arena.size + 1) + 1 ≤ fuel →
      (definitionTypeWithin arena bindings fuel id).Runs (Rejects arena bindings) state
        (LookedUp arena bindings 0 0 id state)) ∧
    (∀ id owner start state, arena.Subtree .type start id →
      (∀ node : NodeId, start ≤ node.index → node.index < id.index + 1 →
        arena.Owns owner node) → Good arena bindings state → state.Busy owner →
      Awaited arena bindings state id →
      state.pending arena * (arena.size + 1) + id.index + 2 ≤ fuel →
      (writtenTypeWithin arena bindings fuel id).Runs (Rejects arena bindings) state
        (LookedUp arena bindings start (id.index + 1) id state)) := by
  intro fuel
  induction fuel with
  | zero => exact ⟨fun _ _ _ _ _ _ _ _ _ h => by omega, fun _ _ _ _ _ _ _ _ _ h => by omega⟩
  | succ fuel ih =>
    obtain ⟨ihDefinition, ihWritten⟩ := ih
    constructor
    · intro id definition written state hk hw hg hcycle hawaited hfuel
      rw [definitionTypeWithin]
      refine storageStep_runs ht hg hk hw (fun hb => hawaited.rejects hk hb (hcycle hb))
        fun start hs howns hn => ?_
      have hlt := Arena.index_lt_size hk
      have hpending := pending_beginning hlt hn
      have hbelow : written.index < id.index := by
        obtain ⟨_, _, hid⟩ := ht.exists_subtree hk
        obtain ⟨_, _, _, _, hf⟩ := hid.typeRoot hk
        rw [Definition.typeRoot_of_written? hw] at hf
        exact hf.le
      have hbusy := hg.busy_beginning hk hn
      have hproduct := Nat.mul_le_mul_right (arena.size + 1) hpending
      rw [Nat.add_mul] at hproduct
      have hfeeds : Feeds arena bindings written id :=
        ⟨_, hk, .inl (by simp [NodeKind.sources_of_written? hw])⟩
      exact ihWritten written id start _ hs howns (good_beginning hg hn) hbusy
        (hawaited.beginning hn hfeeds) (by omega)
    · intro id owner start state hs howns hg hbusy hawaited hfuel
      rw [writtenTypeWithin]
      refine writtenStep_runs hbound hg hs howns hbusy (fun element he hsub hf => ?_)
        fun target name written hk hf => ?_
      · exact ihWritten element owner start state hsub
          (fun node hl hr => howns node hl (by omega)) hg hbusy (hawaited.below hf) (by omega)
      · exact ihDefinition target _ written state hk rfl hg (fun _ => ⟨name, written, rfl⟩)
          (hawaited.below hf) (by omega)

/-- At most as many lookups have not begun as there are nodes. -/
theorem pending_le_size (state : State) : state.pending arena ≤ arena.size := by
  have hle : arena.ids.countP (fun id => (state.begun.get? id).isNone) ≤ arena.ids.length :=
    List.countP_le_length
  simpa [State.pending, Arena.ids] using hle

/-- Inside a lookup that has begun, the bound covers every other one. -/
theorem Grows.covers {fuel : Nat} (h : Grows arena 0 0 (state.beginning id) after)
    (hfuel : arena.depthBound ≤ fuel + 1 + arena.size) (hid : id.index < arena.size)
    (hn : state.begun.get? id = none) :
    after.pending arena * (arena.size + 1) + arena.size + 1 ≤ fuel := by
  have hpending := pending_beginning hid hn
  have hcount : state.pending arena ≤ arena.size := pending_le_size state
  have hle := h.pending_le
  have hsquare : arena.depthBound = arena.size * (arena.size + 1) + (arena.size + 1) := by
    rw [Arena.depthBound, Nat.add_mul, Nat.one_mul]
  have hproduct : (after.pending arena + 1) * (arena.size + 1) ≤
      arena.size * (arena.size + 1) := Nat.mul_le_mul_right _ (by omega)
  rw [Nat.add_mul] at hproduct
  omega

/-- The types of parameters are looked up one by one. -/
theorem parameters_run {ofDefinition : NodeId → Check Ty} {members : List NodeId}
    (hg : Good arena bindings state)
    (hp : ∀ member ∈ members, ∀ between, Good arena bindings between →
      Grows arena 0 0 state between →
      (ofDefinition member).Runs (Rejects arena bindings) between
        (LookedUp arena bindings 0 0 member between)) :
    (members.mapM ofDefinition).Runs (Rejects arena bindings) state fun types after =>
      Good arena bindings after ∧ Grows arena 0 0 state after ∧ members.length = types.length ∧
        ∀ entry ∈ members.zip types, after.types.get? entry.1 = some entry.2 := by
  induction members generalizing state with
  | nil => simpa using ⟨hg, Grows.refl state⟩
  | cons member others ih =>
    simp only [List.mapM_cons, Pass.runs_bind, Pass.runs_pure]
    refine (hp member List.mem_cons_self state hg (.refl state)).mono fun type between hl => ?_
    obtain ⟨hgood, hgrows, hkept⟩ := hl
    refine (ih hgood fun other hm reached hr hgr => hp other (List.mem_cons_of_mem _ hm) reached hr
      (hgrows.trans hgr)).mono fun types after ha => ?_
    obtain ⟨hafter, hfurther, hlength, hall⟩ := ha
    refine ⟨hafter, hgrows.trans hfurther, by simp [hlength], ?_⟩
    intro entry hm
    rw [List.zip_cons_cons] at hm
    rcases List.mem_cons.mp hm with rfl | hm
    · exact hfurther.types hkept
    · exact hall entry hm

/-- No lookup is under way. -/
def Idle (arena : Arena) (state : State) : Prop :=
  ∀ id definition, arena.kind? id = some (.definition definition) → ¬state.Busy id

/-- Where no lookup is under way, none waits for anything. -/
theorem Idle.awaited (h : Idle arena state) (id : NodeId) : Awaited arena bindings state id :=
  fun owner definition hk hb => absurd hb (h owner definition hk)

/-- The type of a function consists of those of its parameters and of its written result. -/
theorem functionType_runs (ht : arena.IsTree) (hbound : Binding.Bound arena bindings) {fuel : Nat}
    (hfuel : arena.depthBound ≤ fuel + arena.size) {name : String} {parameters : List NodeId}
    {result body : NodeId}
    (hk : arena.kind? id = some (.definition (.function name parameters result body)))
    (hg : Good arena bindings state) (hidle : Idle arena state) :
    (definitionTypeWithin arena bindings fuel id).Runs (Rejects arena bindings) state
      (LookedUp arena bindings 0 0 id state) := by
  obtain ⟨_, _, hid⟩ := ht.exists_subtree hk
  obtain ⟨kind, hk', _, _, hf⟩ := Arena.subtree_iff.mp hid
  cases hk.symm.trans hk'
  simp only [NodeKind.places, Arena.forest_append_iff, Arena.forest_cons_iff,
    Arena.forest_nil_iff] at hf
  obtain ⟨middle, hp, hres, hbody, hend⟩ := hf
  have hbl := hbody.le
  have hlt := Arena.index_lt_size hk
  have howns : ∀ node : NodeId, middle ≤ node.index → node.index < result.index + 1 →
      arena.Owns id node := fun node hl hr => ⟨_, middle, hk, hres, hl, Nat.le_of_lt_succ hr⟩
  have hdepth := arena.size_lt_depthBound
  obtain ⟨fuel, rfl⟩ : ∃ less, fuel = less + 1 := ⟨fuel - 1, by omega⟩
  rw [definitionTypeWithin]
  refine definitionStep_runs hg hk (fun hb => absurd hb (hidle id _ hk)) fun hn => ?_
  have hawaited : ∀ source ∈ parameters ++ [result],
      Awaited arena bindings (state.beginning id) source := fun source hm =>
    (hidle.awaited id).beginning hn ⟨_, hk, .inl hm⟩
  simp only [Pass.runs_bind, Pass.runs_pure]
  have hparameters := parameters_run (good_beginning hg hn) fun member hm between hgood hgrows => by
    obtain ⟨_, hsub, _, hlm⟩ := hp.subtree (List.mem_map_of_mem hm)
    obtain ⟨_, written, hd, _, _⟩ := hsub.parameter
    have hkm := Arena.kind?_of_definition? hd
    have hother : member ≠ id := by
      rintro rfl
      have hrl := hres.le
      omega
    have hfree : ¬between.Busy member := fun hb =>
      hidle member _ hkm ((busy_beginning hn hother).mp ((hgrows.busy hkm).mp hb))
    have hcovers := hgrows.covers hfuel hlt hn
    exact (lookups_run ht hbound fuel).1 member _ written between hkm rfl hgood
      (fun hb => absurd hb hfree) ((hawaited member (List.mem_append_left _ hm)).grows hgrows)
      (by omega)
  refine hparameters.mono fun types signed hs => ?_
  obtain ⟨hgood, hgrows, hlength, hall⟩ := hs
  have hbusy : signed.Busy id := (hgrows.busy hk).mpr (hg.busy_beginning hk hn)
  have hcovers := hgrows.covers hfuel hlt hn
  have hresult := (lookups_run ht hbound fuel).2 result id middle signed hres howns hgood hbusy
    ((hawaited result (by simp)).grows hgrows) (by omega)
  refine hresult.mono fun yielded after hl => ?_
  obtain ⟨hafter, hfurther, hkept⟩ := hl
  have htypes : ∀ entry ∈ parameters.zip types, after.types.get? entry.1 = some entry.2 :=
    fun entry hm => hfurther.types (hall entry hm)
  refine finish_runs ht hg hn hk hafter (hgrows.of_empty.trans hfurther) howns ?_ ?_
  · intro source hm
    rcases List.mem_append.mp hm with hm | hm
    · obtain ⟨_, hentry⟩ := exists_mem_zip hlength hm
      simp [htypes _ hentry]
    · obtain rfl := List.mem_singleton.mp hm
      simp [hkept]
  · exact .function hk hlength (fun entry hm => hafter.sound (htypes entry hm))
      (hafter.sound hkept)

/-- The type of a definition is found, unless it is part of a cycle or too large. The bound has room
for as many calls around the lookup as there are nodes. -/
theorem definitionType_runs (ht : arena.IsTree) (hbound : Binding.Bound arena bindings) {fuel : Nat}
    (hfuel : arena.depthBound ≤ fuel + arena.size) {definition : Definition}
    (hk : arena.kind? id = some (.definition definition))
    (hg : Good arena bindings state) (hidle : Idle arena state) :
    (definitionTypeWithin arena bindings fuel id).Runs (Rejects arena bindings) state
      (LookedUp arena bindings 0 0 id state) := by
  have hcount : state.pending arena ≤ arena.size := pending_le_size state
  have hlt := Arena.index_lt_size hk
  have hpending : state.pending arena * (arena.size + 1) + 1 ≤ fuel := by
    have hproduct := Nat.mul_le_mul_right (arena.size + 1) hcount
    rw [Arena.depthBound, Nat.add_mul] at hfuel
    omega
  have hstorage : ∀ written, definition.written? = some written →
      (definitionTypeWithin arena bindings fuel id).Runs (Rejects arena bindings) state
        (LookedUp arena bindings 0 0 id state) := fun written hw =>
    (lookups_run ht hbound _).1 id definition written state hk hw hg
      (fun hb => absurd hb (hidle id _ hk)) (hidle.awaited id) hpending
  cases definition with
  | function => exact functionType_runs ht hbound hfuel hk hg hidle
  | var _ written | type _ written | parameter _ written => exact hstorage written rfl

end Typing

end Pins
