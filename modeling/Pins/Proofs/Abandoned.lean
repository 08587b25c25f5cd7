import Pins.Proofs.Checking
import Pins.Proofs.Cycles
import Pins.Proofs.Histories

/-!
# Abandoned lookups

A lookup that stops leaves the definitions it was at marked as being looked up: the lookup is
abandoned. A later call that comes to such a type definition takes it for one that depends on
itself. So the cycles that are reported behind a history of calls are cycles of type definitions, or
they are reported at a definition that an earlier call was at when it failed
(`cycle_or_abandoned`).

Calls that end with a type or a verdict leave no mark: the lookups that are under way behind them
are those that were under way before (`Steady`).
-/

namespace Pins

/-- The fault of a type definition that is met again while it is looked up. -/
def Fault.isCycle : Fault → Bool
  | cyclicTypeDefinition _ => true
  | _ => false

namespace Typing

variable {arena : Arena} {bindings : NodeTable NodeId} {id node : NodeId} {type : Ty}
  {origin state between after : State}

/-- The lookups of definitions that are under way are the same in two states. -/
def Steady (arena : Arena) (before after : State) : Prop :=
  ∀ id definition, arena.kind? id = some (.definition definition) →
    (after.Busy id ↔ before.Busy id)

/-- A cycle is reported at a type definition whose type comes from itself, or one whose lookup was
under way in the state of origin. -/
def Explains (arena : Arena) (bindings : NodeTable NodeId) (origin : State)
    (diagnostic : Diagnostic) : Prop :=
  ∀ name, diagnostic.fault = .cyclicTypeDefinition name →
    ∃ id written, arena.kind? id = some (.definition (.type name written)) ∧
      diagnostic.position = arena.position id ∧
      (Relation.TransGen (Feeds arena bindings) id id ∨ origin.Busy id)

/-- Every lookup that is under way and was not in the state of origin waits for the type of a
node. -/
def Waits (arena : Arena) (bindings : NodeTable NodeId) (origin state : State) (id : NodeId) :
    Prop :=
  ∀ owner definition, arena.kind? owner = some (.definition definition) → state.Busy owner →
    origin.Busy owner ∨ Relation.TransGen (Feeds arena bindings) id owner

/-- A definition is being looked up exactly if its lookup is under way. -/
theorem resolution_eq_inProgress : state.resolution id = .inProgress ↔ state.Busy id := by
  unfold State.resolution State.Busy
  cases state.begun.get? id <;> cases state.types.get? id <;> simp

/-- Nothing has asked for the type of a definition before its lookup begins. -/
theorem begun_of_unvisited (h : state.resolution id = .unvisited) :
    state.begun.get? id = none := by
  unfold State.resolution at h
  cases hb : state.begun.get? id with
  | none => rfl
  | some begun => cases ht : state.types.get? id <;> simp [hb, ht] at h

/-- A fault other than a cycle has nothing to explain. -/
theorem explains_of_isCycle {fault : Fault} (h : fault.isCycle = false) :
    Explains arena bindings origin ⟨fault, arena.position id⟩ := by
  rintro name rfl
  cases h

namespace Steady

theorem refl (state : State) : Steady arena state state := fun _ _ _ => Iff.rfl

theorem trans (hf : Steady arena state between) (hs : Steady arena between after) :
    Steady arena state after :=
  fun id definition hk => (hs id definition hk).trans (hf id definition hk)

/-- Nothing waits that did not in a state of origin with the same lookups under way. -/
theorem waits (h : Steady arena origin state) : Waits arena bindings origin state id :=
  fun owner definition hk hb => .inl ((h owner definition hk).mp hb)

end Steady

namespace Waits

/-- What waits for a node waits for what feeds it. -/
theorem below (h : Waits arena bindings origin state id) (hf : Feeds arena bindings node id) :
    Waits arena bindings origin state node :=
  fun owner definition hk hb => (h owner definition hk hb).imp_right (.trans (.single hf))

/-- A lookup that begins waits for what feeds its definition. -/
theorem beginning (h : Waits arena bindings origin state id) (hn : state.begun.get? id = none)
    (hf : Feeds arena bindings node id) :
    Waits arena bindings origin (state.beginning id) node := by
  intro owner definition hk hb
  by_cases ho : owner = id
  · exact .inr (ho ▸ .single hf)
  · exact h.below hf owner definition hk ((busy_beginning hn ho).mp hb)

theorem steady (h : Waits arena bindings origin state id) (hs : Steady arena state after) :
    Waits arena bindings origin after id :=
  fun owner definition hk hb => h owner definition hk ((hs owner definition hk).mp hb)

/-- A definition that is met again while it is looked up depends on itself, or its lookup was under
way in the state of origin. -/
theorem explains {definition : Definition} (h : Waits arena bindings origin state id)
    (hk : arena.kind? id = some (.definition definition)) (hb : state.Busy id) :
    Explains arena bindings origin ⟨cycleFault definition, arena.position id⟩ := by
  intro name hf
  cases definition with
  | type found written =>
    cases hf
    exact ⟨id, written, hk, rfl, (h id _ hk hb).symm⟩
  | function | var | parameter => cases hf

end Waits

/-- Keeping the type of a node changes nothing else. -/
theorem record_explains :
    (record arena id type).Runs (Explains arena bindings origin) state fun _ after =>
      after.begun = state.begun ∧ ∀ other, after.types.get? other =
        if other = id then some type else state.types.get? other := by
  cases hs : state.types.store? id type with
  | none =>
    simp only [record, Pass.runs_bind, Pass.runs_get, hs]
    exact explains_of_isCycle rfl
  | some types =>
    simp only [record, Pass.runs_bind, Pass.runs_get, hs, Pass.runs_set, Pass.runs_pure]
    exact ⟨trivial, NodeTable.get?_store? hs⟩

/-- Keeping the type of a node that is no definition ends no lookup of one. -/
theorem record_steady (hk : ∀ definition, arena.kind? id ≠ some (.definition definition)) :
    (record arena id type).Runs (Explains arena bindings origin) state fun _ after =>
      Steady arena state after := by
  refine record_explains.mono fun _ after hr other definition ho => ?_
  have hother : other ≠ id := by
    rintro rfl
    exact hk definition ho
  simp only [State.Busy, hr.1, hr.2, if_neg hother]

/-- A lookup begins at a node no other lookup is under way for, and ends with its type. -/
theorem steady_finish (hn : state.begun.get? id = none)
    (hs : Steady arena (state.beginning id) between) (hb : after.begun = between.begun)
    (ht : ∀ other, after.types.get? other =
      if other = id then some type else between.types.get? other) : Steady arena state after := by
  intro other definition hk
  by_cases ho : other = id
  · subst ho
    simp [State.Busy, hn, ht]
  · rw [← busy_beginning hn ho, ← hs other definition hk]
    simp only [State.Busy, hb, ht, if_neg ho]

section Lookups

variable {ofDefinition ofWritten : NodeId → Check Ty}

/-- A way to look up types finishes the lookups it begins and explains the cycles it reports. -/
def LooksUpFrom (arena : Arena) (bindings : NodeTable NodeId) (origin : State)
    (lookup : NodeId → Check Ty) : Prop :=
  ∀ id state, Waits arena bindings origin state id →
    (lookup id).Runs (Explains arena bindings origin) state fun _ after => Steady arena state after

/-- The type of a definition is found through what feeds it. -/
theorem definitionStep_looksUp (hd : LooksUpFrom arena bindings origin ofDefinition)
    (hw : LooksUpFrom arena bindings origin ofWritten) :
    LooksUpFrom arena bindings origin (definitionStep arena ofDefinition ofWritten) := by
  intro id state hwaits
  cases hdefinition : arena.definition? id with
  | none =>
    simp only [definitionStep, hdefinition]
    exact explains_of_isCycle rfl
  | some definition =>
    have hk := Arena.kind?_of_definition? hdefinition
    simp only [definitionStep, hdefinition, Pass.runs_bind, Pass.runs_get]
    cases hr : state.resolution id with
    | done type => exact .refl state
    | inProgress => exact hwaits.explains hk (resolution_eq_inProgress.mp hr)
    | unvisited =>
      have hn := begun_of_unvisited hr
      have hsource : ∀ source ∈ (NodeKind.definition definition).sources, ∀ between,
          Steady arena (state.beginning id) between →
          Waits arena bindings origin between source := fun source hm between hs =>
        (hwaits.beginning hn ⟨_, hk, .inl hm⟩).steady hs
      have hfinish : ∀ type between, Steady arena (state.beginning id) between →
          (record arena id type).Runs (Explains arena bindings origin) between fun _ after =>
            Steady arena state after := fun type between hs =>
        record_explains.mono fun _ after hr => steady_finish hn hs hr.1 hr.2
      -- a definition that keeps a value has the type of its written type
      have hstorage : ∀ written, (NodeKind.definition definition).sources = [written] →
          (ofWritten written >>= record arena id).Runs (Explains arena bindings origin)
            (state.beginning id) fun _ after => Steady arena state after := fun written he =>
        Pass.runs_bind.mpr <|
          (hw written _ (hsource written (by simp [he]) _ (.refl _))).mono hfinish
      simp only [Pass.runs_bind, Pass.runs_modify]
      cases definition with
      | var name written | type name written | parameter name written => exact hstorage written rfl
      | function name parameters result body =>
        simp only [Pass.runs_bind, Pass.runs_pure]
        have hparameters : (parameters.mapM ofDefinition).Runs (Explains arena bindings origin)
            (state.beginning id) fun _ between => Steady arena (state.beginning id) between := by
          refine Pass.runs_mapM (fun member hm reached hs => ?_) (.refl _)
          refine (hd member reached (hsource member ?_ reached hs)).mono fun _ _ hr => hs.trans hr
          exact List.mem_append_left _ hm
        refine hparameters.mono fun types signed hs => ?_
        refine (hw result signed (hsource result ?_ signed hs)).mono fun yielded reached hr => ?_
        · exact List.mem_append_right _ List.mem_cons_self
        · exact hfinish _ reached (hs.trans hr)

/-- The type of a written type is found through what feeds it. -/
theorem writtenStep_looksUp (hd : LooksUpFrom arena bindings origin ofDefinition)
    (hw : LooksUpFrom arena bindings origin ofWritten) :
    LooksUpFrom arena bindings origin (writtenStep arena bindings ofDefinition ofWritten) := by
  intro id state hwaits
  simp only [writtenStep, memoized, Pass.runs_bind, Pass.runs_get]
  cases state.types.get? id with
  | some type => exact .refl state
  | none =>
    dsimp only
    cases hwritten : arena.type? id with
    | none => exact explains_of_isCycle rfl
    | some written =>
      have hk : arena.kind? id = some (.type written) := Arena.kind?_of_type? hwritten
      have hnot : ∀ definition, arena.kind? id ≠ some (.definition definition) := by
        simp [hk]
      cases written with
      | atom word => exact record_steady hnot
      | array length element =>
        have hfeeds : Feeds arena bindings element id :=
          ⟨_, hk, .inl (by simp [NodeKind.sources, WrittenType.children])⟩
        simp only [Pass.runs_bind]
        refine (hw element state (hwaits.below hfeeds)).mono fun inner between hs => ?_
        split
        · exact (record_steady hnot).mono fun _ after hr => hs.trans hr
        · exact explains_of_isCycle rfl
      | name word =>
        cases hb : bindings.get? id with
        | none => exact explains_of_isCycle rfl
        | some target =>
          simp only [Pass.runs_bind]
          refine (hd target state (hwaits.below ⟨_, hk, .inr ⟨word, rfl, hb⟩⟩)).mono
            fun found between hs => ?_
          exact (record_steady hnot).mono fun _ after hr => hs.trans hr

/-- However deep lookups are nested, they finish what they begin and explain the cycles they
report. -/
theorem lookups_explain (fuel : Nat) :
    LooksUpFrom arena bindings origin (definitionTypeWithin arena bindings fuel) ∧
      LooksUpFrom arena bindings origin (writtenTypeWithin arena bindings fuel) := by
  induction fuel with
  | zero =>
    constructor <;> intro id state _ <;> exact explains_of_isCycle rfl
  | succ fuel ih =>
    exact ⟨definitionStep_looksUp ih.1 ih.2, writtenStep_looksUp ih.1 ih.2⟩

end Lookups

/-- A pass that begins with the lookups of the state of origin under way ends with just these under
way, or explains the cycle it reports. -/
def Finishes {α : Type} (arena : Arena) (bindings : NodeTable NodeId) (origin : State)
    (pass : Check α) : Prop :=
  ∀ state, Steady arena origin state →
    pass.Runs (Explains arena bindings origin) state fun _ after => Steady arena origin after

theorem LooksUpFrom.finishes {lookup : NodeId → Check Ty}
    (h : LooksUpFrom arena bindings origin lookup) (id : NodeId) :
    Finishes arena bindings origin (lookup id) :=
  fun state hs => (h id state hs.waits).mono fun _ _ hr => hs.trans hr

/-- What checking finds by itself is no cycle, so there is nothing to explain. -/
theorem permits_explains : Permits arena (Explains arena bindings origin) := by
  intro fault h id
  refine explains_of_isCycle ?_
  cases fault <;> first | rfl | cases h

/-- The type of a node that is no definition is kept. -/
theorem record_finishes (hk : ∀ definition, arena.kind? id ≠ some (.definition definition))
    (type : Ty) : Finishes arena bindings origin (record arena id type) :=
  fun _ hs => (record_steady hk).mono fun _ _ hr => hs.trans hr

/-- Typing an expression or checking a node finishes what it begins. -/
theorem checks_finish (fuel : Nat) (id : NodeId) :
    Finishes arena bindings origin (expressionTypeWithin arena bindings fuel id) ∧
      Finishes arena bindings origin (checkWithin arena bindings fuel id) := by
  have hp : Permits arena (Explains arena bindings origin) := permits_explains
  induction fuel generalizing id with
  | zero => exact ⟨fail_keeps hp trivial, fail_keeps hp trivial⟩
  | succ fuel ih =>
    have hlookups : LooksUpFrom arena bindings origin (definitionTypeWithin arena bindings fuel) ∧
        LooksUpFrom arena bindings origin (writtenTypeWithin arena bindings fuel) :=
      lookups_explain fuel
    have hd := fun id => hlookups.1.finishes id
    have hw := fun id => hlookups.2.finishes id
    have htype := fun id => (ih id).1
    have hcheck := fun id => (ih id).2
    refine ⟨memoized_keeps ?_, nodeStep_keeps hp htype hd hcheck hw⟩
    cases hexpression : arena.expression? id with
    | none => exact fail_keeps hp trivial
    | some expression =>
      have hk := Arena.kind?_of_expression? hexpression
      exact (expressionStep_keeps hp htype hd hcheck).bind
        (record_finishes (by simp [hk]))

/-- What a caller may ask for: the type of a definition, of a written type or of an expression, or
the check of a node. -/
inductive Request where
  /-- The type of a definition. -/
  | definition (id : NodeId)
  /-- The type of a written type. -/
  | written (id : NodeId)
  /-- The type of an expression. -/
  | expression (id : NodeId)
  /-- The check of a node and of what is below it. -/
  | check (id : NodeId)
deriving DecidableEq, Repr

namespace Request

/-- The call for a request; a check finds no type. -/
def run (arena : Arena) (bindings : NodeTable NodeId) : Request → Check (Option Ty)
  | definition id => do return some (← definitionType arena bindings id)
  | written id => do return some (← writtenType arena bindings id)
  | expression id => do return some (← expressionType arena bindings id)
  | check id => do
    Typing.check arena bindings id
    return none

/-- The state behind calls that are made one after the other, whether they fail or not. -/
abbrev behind (arena : Arena) (bindings : NodeTable NodeId) (earlier : List Request) : State :=
  Pass.reachedAll (run arena bindings) earlier .initial

variable {request : Request} {earlier : List Request}

theorem run_finishes : Finishes arena bindings origin (request.run arena bindings) := by
  cases request with
  | definition id => exact Pass.Keeps.bind ((lookups_explain _).1.finishes id) fun _ => .pure _
  | written id => exact Pass.Keeps.bind ((lookups_explain _).2.finishes id) fun _ => .pure _
  | expression id => exact Pass.Keeps.bind (checks_finish _ id).1 fun _ => .pure _
  | check id => exact Pass.Keeps.bind (checks_finish _ id).2 fun _ => .pure _

/-- A call that leaves the lookup of a definition under way has failed. -/
theorem exists_failed {definition : Definition}
    (hk : arena.kind? id = some (.definition definition))
    (h : (behind arena bindings earlier).Busy id) :
    ∃ front request back diagnostic after, earlier = front ++ request :: back ∧
      ¬ (behind arena bindings front).Busy id ∧
      request.run arena bindings (behind arena bindings front) = .error diagnostic after ∧
      after.Busy id := by
  have hfirst : ¬ State.initial.Busy id := by simp [State.Busy, State.initial]
  obtain ⟨front, request, back, rfl, hbefore, hafter⟩ :=
    Pass.exists_turn (State.Busy · id) h hfirst
  cases hr : request.run arena bindings (behind arena bindings front) with
  | ok value after =>
    have hsteady : Steady arena (behind arena bindings front) after :=
      (request.run_finishes _ (.refl _)).of_ok hr
    rw [hr] at hafter
    exact absurd ((hsteady id definition hk).mp hafter) hbefore
  | error diagnostic after =>
    rw [hr] at hafter
    exact ⟨front, request, back, diagnostic, after, rfl, hbefore, hr, hafter⟩

/-- A type definition whose lookup is under way is taken for one that depends on itself. -/
theorem run_definition_of_busy {name : String} {written : NodeId}
    (hk : arena.kind? id = some (.definition (.type name written))) (hb : state.Busy id) :
    (definition id).run arena bindings state =
      .error ⟨.cyclicTypeDefinition name, arena.position id⟩ state := by
  have hdefinition : arena.definition? id = some (.type name written) := by
    simp [Arena.definition?, hk]
  have hdepth := arena.size_lt_depthBound
  obtain ⟨fuel, hfuel⟩ : ∃ less, arena.depthBound = less + 1 := ⟨arena.depthBound - 1, by omega⟩
  have hlookup : definitionType arena bindings id state =
      .error ⟨.cyclicTypeDefinition name, arena.position id⟩ state := by
    simp only [definitionType, hfuel, definitionTypeWithin, definitionStep, hdefinition]
    rw [Pass.run_get_bind, resolution_eq_inProgress.mpr hb]
    rfl
  exact Pass.bind_of_error hlookup _

end Request

/-- Behind any history of calls, a cycle is reported at a type definition that is on a cycle of type
definitions, or at one that is still being looked up. An earlier call was at such a definition when
it failed, and any further call for its type reports a cycle. -/
theorem cycle_or_abandoned {file : String} {tokens : List Token}
    (hp : parse file tokens = .ok arena) (hb : Binding.ofArena arena = .ok bindings)
    (earlier : List Request) :
    (∀ (request : Request) diagnostic after name,
      request.run arena bindings (Request.behind arena bindings earlier) =
        .error diagnostic after →
      diagnostic.fault = .cyclicTypeDefinition name →
      ∃ id written, arena.kind? id = some (.definition (.type name written)) ∧
        diagnostic.position = arena.position id ∧
        (Relation.TransGen (Mentions arena bindings) id id ∨
          (Request.behind arena bindings earlier).resolution id = .inProgress)) ∧
    (∀ id definition, arena.kind? id = some (.definition definition) →
      (Request.behind arena bindings earlier).resolution id = .inProgress →
      ∃ front request back diagnostic after, earlier = front ++ request :: back ∧
        (Request.behind arena bindings front).resolution id ≠ .inProgress ∧
        request.run arena bindings (Request.behind arena bindings front) =
          .error diagnostic after ∧
        after.resolution id = .inProgress) ∧
    ∀ id name written, arena.kind? id = some (.definition (.type name written)) →
      (Request.behind arena bindings earlier).resolution id = .inProgress →
      (Request.definition id).run arena bindings (Request.behind arena bindings earlier) =
        .error ⟨.cyclicTypeDefinition name, arena.position id⟩
          (Request.behind arena bindings earlier) := by
  have htree := parse_isTree hp
  have hbound := Binding.ofArena_bound htree hb
  simp only [resolution_eq_inProgress, ne_eq]
  refine ⟨?_, fun id definition hk hbusy => Request.exists_failed hk hbusy,
    fun id name written hk hbusy => Request.run_definition_of_busy hk hbusy⟩
  intro request diagnostic after name hr hf
  have hexplained : Explains arena bindings (Request.behind arena bindings earlier) diagnostic :=
    (request.run_finishes _ (.refl _)).of_error hr
  obtain ⟨id, written, hk, hposition, hcycle | hbusy⟩ := hexplained name hf
  · exact ⟨id, written, hk, hposition,
      .inl ((mentions_of_feeds htree hbound hk hcycle).2 name written hk)⟩
  · exact ⟨id, written, hk, hposition, .inr hbusy⟩

/-- The array of the only definition of a source is too large, and its lookup is abandoned. -/
theorem exists_abandoned : ∃ tokens arena bindings written,
    tokenize "test" "typ t: arr[2000000000] integer" = .ok tokens ∧
      parse "test" tokens = .ok arena ∧ Binding.ofArena arena = .ok bindings ∧
      bindings = .empty ∧ arena.kind? ⟨2⟩ = some (.definition (.type "t" written)) ∧
      (Request.behind arena bindings [.definition ⟨2⟩]).resolution ⟨2⟩ = .inProgress := by
  have hs : ((tokenize "test" "typ t: arr[2000000000] integer").toOption.any fun tokens =>
      (parse "test" tokens).toOption.any fun arena =>
        (Binding.ofArena arena).toOption.any fun bindings =>
          decide (bindings = .empty ∧ arena.kind? ⟨2⟩ = some (.definition (.type "t" ⟨1⟩)) ∧
            (Request.behind arena bindings [.definition ⟨2⟩]).resolution ⟨2⟩ = .inProgress)) =
      true := by
    decide +kernel
  have hok : ∀ {α : Type} {e : Except Diagnostic α} {value : α}, e.toOption = some value →
      e = .ok value := by
    intro α e value h
    cases e <;> cases h
    rfl
  simp only [Option.any_eq_true, decide_eq_true_eq] at hs
  obtain ⟨tokens, ht, arena, hp, bindings, hb, hrest⟩ := hs
  exact ⟨tokens, arena, bindings, ⟨1⟩, hok ht, hok hp, hok hb, hrest⟩

/-- The lookup of a definition whose array is too large was abandoned by the call that found this
out. -/
theorem cycle_or_abandoned_of_large_array : ∃ tokens arena bindings,
    tokenize "test" "typ t: arr[2000000000] integer" = .ok tokens ∧
      parse "test" tokens = .ok arena ∧ Binding.ofArena arena = .ok bindings ∧
      ∃ front request back diagnostic after,
        [Request.definition ⟨2⟩] = front ++ request :: back ∧
          (Request.behind arena bindings front).resolution ⟨2⟩ ≠ .inProgress ∧
          request.run arena bindings (Request.behind arena bindings front) =
            .error diagnostic after ∧
          after.resolution ⟨2⟩ = .inProgress := by
  obtain ⟨tokens, arena, bindings, written, ht, hp, hb, _, hk, hbusy⟩ := exists_abandoned
  exact ⟨tokens, arena, bindings, ht, hp, hb,
    (cycle_or_abandoned hp hb [.definition ⟨2⟩]).2.1 ⟨2⟩ _ hk hbusy⟩

/-- A program in which no type definition mentions another one: the second call for the type of a
definition with a large array reports it for a cycle. -/
theorem cycle_reported_of_large_array : ∃ tokens arena bindings after,
    tokenize "test" "typ t: arr[2000000000] integer" = .ok tokens ∧
      parse "test" tokens = .ok arena ∧ Binding.ofArena arena = .ok bindings ∧
      (∀ id target, ¬ Mentions arena bindings id target) ∧
      (Request.definition ⟨2⟩).run arena bindings
          (Request.behind arena bindings [.definition ⟨2⟩]) =
        .error ⟨.cyclicTypeDefinition "t", arena.position ⟨2⟩⟩ after := by
  obtain ⟨tokens, arena, bindings, written, ht, hp, hb, rfl, hk, hbusy⟩ := exists_abandoned
  refine ⟨tokens, arena, .empty, _, ht, hp, hb, ?_,
    Request.run_definition_of_busy hk (resolution_eq_inProgress.mp hbusy)⟩
  rintro id target ⟨_, _, reference, _, _, _, _, hbound⟩
  simp at hbound

end Typing

end Pins
