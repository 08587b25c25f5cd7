import Pins.Proofs.Abandoned
import Pins.Proofs.Operands
import Pins.Proofs.WellFormed

/-!
# Types on demand

The entry points of typing may be called in any order and as often as one likes. In a program that
has its types, every call ends with a type, which is the one that typing the whole program finds;
behind it only such types are kept, and no lookup is under way (`requests_answered`).

A node may be asked for in front of, behind or in the middle of what it belongs to, so it is not
clear from the order of calls that its type is still missing when it is about to be kept. But a
lookup gives types to nothing but what feeds its node (`Touches`), and no node of a well-typed
program feeds itself; and an expression gives types to no expression with a larger number
(`Calm`).
-/

namespace Pins.Typing

open Pass (Moves)

variable {arena : Arena} {bindings : NodeTable NodeId} {id node source : NodeId} {type : Ty}
  {state between after : State} {fuel last : Nat}

/-- Types are given to what feeds a node, and to no expression. -/
def Touches (arena : Arena) (bindings : NodeTable NodeId) (id : NodeId) (before after : State) :
    Prop :=
  ∀ node, after.types.get? node = before.types.get? node ∨
    Relation.ReflTransGen (Feeds arena bindings) node id ∧
      ∀ expression, arena.kind? node ≠ some (.expression expression)

instance : IsPreorder State (Touches arena bindings id) where
  refl _ _ := .inl rfl
  trans _ _ _ hf hs node := by
    rcases hs node with he | ht
    · rw [he]
      exact hf node
    · exact .inr ht

/-- What feeds what feeds a node feeds the node. -/
theorem Touches.below (h : Touches arena bindings source state after)
    (hf : Feeds arena bindings source id) : Touches arena bindings id state after :=
  fun node => (h node).imp_right fun ht => ⟨ht.1.tail hf, ht.2⟩

/-- A lookup leaves alone what does not feed its node. -/
theorem Touches.get?_eq (h : Touches arena bindings id state after)
    (hn : ¬Relation.ReflTransGen (Feeds arena bindings) node id) :
    after.types.get? node = state.types.get? node :=
  (h node).resolve_right fun ht => hn ht.1

/-- A lookup leaves expressions alone. -/
theorem Touches.expression {expression : Expression} (h : Touches arena bindings id state after)
    (hk : arena.kind? node = some (.expression expression)) :
    after.types.get? node = state.types.get? node :=
  (h node).resolve_right fun ht => ht.2 expression hk

/-- Keeping the type of a node that is no expression touches the node. -/
theorem record_touches (hk : ∀ expression, arena.kind? id ≠ some (.expression expression))
    (type : Ty) : Moves (Touches arena bindings id) (record arena id type) := by
  intro state
  rw [record, Pass.run_get_bind]
  cases hs : state.types.store? id type with
  | none => exact refl_of (Touches arena bindings id) state
  | some types =>
    intro node
    change types.get? node = _ ∨ _
    rw [NodeTable.get?_store? hs]
    by_cases hn : node = id
    · subst hn
      exact .inr ⟨.refl, hk⟩
    · exact .inl (if_neg hn)

section Lookups

variable {ofDefinition ofWritten : NodeId → Check Ty}
  (hd : ∀ source, Moves (Touches arena bindings source) (ofDefinition source))
  (hw : ∀ source, Moves (Touches arena bindings source) (ofWritten source))

include hd hw

theorem definitionStep_touches :
    Moves (Touches arena bindings id) (definitionStep arena ofDefinition ofWritten id) := by
  unfold definitionStep
  split
  · exact .throw _
  · next definition hdefinition =>
    have hk := Arena.kind?_of_definition? hdefinition
    have hwritten : ∀ written ∈ (NodeKind.definition definition).sources,
        Moves (Touches arena bindings id) (ofWritten written) := fun written hm =>
      (hw written).mono fun _ _ ht => ht.below ⟨_, hk, .inl hm⟩
    refine Moves.get.bind fun state => ?_
    split
    · exact .pure _
    · exact .throw _
    · have hrecord : ∀ type, Moves (Touches arena bindings id) (record arena id type) :=
        record_touches (by simp [hk])
      refine (Moves.modify fun _ _ => .inl rfl).bind fun _ => ?_
      cases definition with
      | function name parameters result body =>
        have hparameters : ∀ member ∈ parameters,
            Moves (Touches arena bindings id) (ofDefinition member) := fun member hm =>
          (hd member).mono fun _ _ ht => ht.below ⟨_, hk, .inl (List.mem_append_left _ hm)⟩
        refine (Moves.mapM hparameters).bind fun types => ?_
        have hresult := hwritten result (by simp [NodeKind.sources])
        exact hresult.bind fun _ => (Moves.pure _).bind hrecord
      | var name written | type name written | parameter name written =>
        exact (hwritten written (by simp [NodeKind.sources])).bind hrecord

theorem writtenStep_touches :
    Moves (Touches arena bindings id) (writtenStep arena bindings ofDefinition ofWritten id) := by
  refine Moves.get.bind fun state => ?_
  split
  · exact .pure _
  · split
    · exact .throw _
    · next hwritten =>
      exact record_touches (by simp [Arena.kind?_of_type? hwritten]) _
    · next element hwritten =>
      have hk := Arena.kind?_of_type? hwritten
      have helement : Moves (Touches arena bindings id) (ofWritten element) :=
        (hw element).mono fun _ _ ht =>
          ht.below ⟨_, hk, .inl (by simp [NodeKind.sources, WrittenType.children])⟩
      refine helement.bind fun inner => ?_
      dsimp only
      split
      · exact record_touches (by simp [hk]) _
      · exact .throw _
    · next word hwritten =>
      have hk := Arena.kind?_of_type? hwritten
      split
      · exact .throw _
      · next target hb =>
        have htarget : Moves (Touches arena bindings id) (ofDefinition target) :=
          (hd target).mono fun _ _ ht => ht.below ⟨_, hk, .inr ⟨word, rfl, hb⟩⟩
        exact htarget.bind fun type => record_touches (by simp [hk]) type

end Lookups

/-- However deep lookups are nested, they give types to nothing but what feeds their node. -/
theorem lookups_touch (fuel : Nat) :
    (∀ id, Moves (Touches arena bindings id) (definitionTypeWithin arena bindings fuel id)) ∧
      ∀ id, Moves (Touches arena bindings id) (writtenTypeWithin arena bindings fuel id) := by
  induction fuel with
  | zero => exact ⟨fun _ => .throw _, fun _ => .throw _⟩
  | succ fuel ih =>
    exact ⟨fun _ => definitionStep_touches ih.1 ih.2, fun _ => writtenStep_touches ih.1 ih.2⟩

section Calls

variable {calm : State → Prop} {ofDefinition ofWritten typeOf : NodeId → Check Ty}
  {check : NodeId → Check Unit}

/-- A call keeps what is calm, and finds a type of its node. -/
def Answers (arena : Arena) (bindings : NodeTable NodeId) (calm : State → Prop)
    (lookup : NodeId → Check Ty) (id : NodeId) : Prop :=
  ∀ state, calm state → (lookup id).Runs (Rejects arena bindings) state fun type after =>
    calm after ∧ HasType arena bindings id type

/-- A check keeps what is calm. -/
def Passes (arena : Arena) (bindings : NodeTable NodeId) (calm : State → Prop)
    (check : NodeId → Check Unit) (id : NodeId) : Prop :=
  ∀ state, calm state → (check id).Runs (Rejects arena bindings) state fun _ after => calm after

theorem condition_passes {test : NodeId} (h : Answers arena bindings calm typeOf test)
    (ht : HasType arena bindings test .logical) :
    Passes arena bindings calm (condition arena typeOf) test := by
  intro state hc
  simp only [condition, Pass.runs_bind]
  refine (h state hc).mono fun type after ha => ?_
  obtain rfl := ha.2.unique ht
  simpa using ha.1

theorem loopPart_passes {part : String} {operand : NodeId}
    (h : Answers arena bindings calm typeOf operand)
    (ht : HasType arena bindings operand .integer) :
    Passes arena bindings calm (loopPart arena typeOf part) operand := by
  intro state hc
  simp only [loopPart, Pass.runs_bind]
  refine (h state hc).mono fun type after ha => ?_
  obtain rfl := ha.2.unique ht
  simpa using ha.1

/-- Arguments that have the types of the parameters are accepted. -/
theorem checkArguments_passes {callee : String} {index : Nat} {arguments : List NodeId}
    {parameters : List Ty}
    (h : ∀ argument ∈ arguments, Answers arena bindings calm typeOf argument)
    (ht : ∀ entry ∈ arguments.zip parameters, HasType arena bindings entry.1 entry.2)
    (hc : calm state) :
    (checkArguments arena typeOf callee index arguments parameters).Runs (Rejects arena bindings)
      state fun _ after => calm after := by
  induction arguments generalizing parameters index state with
  | nil => simpa [checkArguments] using hc
  | cons argument others ih =>
    cases parameters with
    | nil => simpa [checkArguments] using hc
    | cons parameter rest =>
      simp only [checkArguments, Pass.runs_bind]
      refine (h argument List.mem_cons_self state hc).mono fun type between hb => ?_
      obtain rfl := hb.2.unique (ht (argument, parameter) (by simp))
      rw [if_pos rfl]
      exact ih (fun other hm => h other (List.mem_cons_of_mem _ hm))
        (fun entry hm => ht entry (by simp [hm])) hb.1

/-- Of some expressions all are typed, and the type of the last one is handed on. -/
theorem lastType_answers {expressions : List NodeId} {final : NodeId}
    (h : ∀ expression ∈ expressions, Answers arena bindings calm typeOf expression)
    (hf : expressions.getLast? = some final) (hc : calm state) :
    (lastType typeOf expressions).Runs (Rejects arena bindings) state fun found after =>
      calm after ∧ ∃ type, found = some type ∧ HasType arena bindings final type := by
  induction expressions generalizing state with
  | nil => cases hf
  | cons expression others ih =>
    have hfirst := h expression List.mem_cons_self state hc
    cases others with
    | nil =>
      obtain rfl : expression = final := by simpa using hf
      simp only [lastType, Pass.runs_bind, Pass.runs_pure]
      exact hfirst.mono fun type after ha => ⟨ha.1, type, rfl, ha.2⟩
    | cons next rest =>
      simp only [lastType, Pass.runs_bind]
      refine hfirst.mono fun _ between hb => ?_
      exact ih (fun other hm => h other (List.mem_cons_of_mem _ hm)) (by simpa using hf) hb.1

variable
  (hd : ∀ id definition, arena.kind? id = some (.definition definition) →
    Answers arena bindings calm ofDefinition id)

include hd

/-- A call in a well-typed program is given the type of the result. -/
theorem callType_answers {callee : String} {arguments : List NodeId}
    (hbound : Binding.Bound arena bindings)
    (hk : arena.kind? id = some (.expression (.call callee arguments)))
    (ht : HasType arena bindings id type)
    (h : ∀ argument ∈ arguments, Answers arena bindings calm typeOf argument)
    (hc : calm state) :
    (callType arena bindings ofDefinition typeOf id callee arguments).Runs (Rejects arena bindings)
      state fun found after => calm after ∧ found = type := by
  obtain ⟨types, hsignature, hlength, harguments⟩ := ht.derives hk
  have hrun : (signature arena bindings ofDefinition id callee).Runs (Rejects arena bindings) state
      fun found after => calm after ∧ found = .function types type := by
    unfold signature
    rcases hsignature with hs | ⟨hs, target, hb, htarget⟩
    · simp only [hs]
      exact ⟨hc, rfl⟩
    · simp only [hs, hb]
      obtain ⟨definition, hdefinition⟩ :=
        (hbound id (Arena.index_lt_size hk)).exists_definition hb
      have htarget' := Arena.kind?_of_definition? hdefinition
      refine (hd target definition htarget' state hc).mono fun found after ha => ?_
      exact ⟨ha.1, ha.2.unique htarget⟩
  simp only [callType, Pass.runs_bind]
  refine hrun.mono fun found between hb => ?_
  obtain ⟨hcalm, rfl⟩ := hb
  simp only [hlength.symm, if_true, Pass.runs_bind, Pass.runs_pure]
  exact (checkArguments_passes h harguments hcalm).mono fun _ after ha => ⟨ha, trivial⟩

/-- An expression of a well-typed program is given its type, if the expressions and definitions in
it are. -/
theorem expressionStep_answers {expression : Expression} (hbound : Binding.Bound arena bindings)
    (hk : arena.kind? id = some (.expression expression)) (ht : HasType arena bindings id type)
    (h : ∀ place below, (place, below) ∈ (NodeKind.expression expression).places →
      place = .expression ∨ place = .counter → Answers arena bindings calm typeOf below)
    (hcheck : ∀ below, (Place.definitions, below) ∈ (NodeKind.expression expression).places →
      Passes arena bindings calm check below) (hc : calm state) :
    (expressionStep arena bindings ofDefinition typeOf check id expression).Runs
      (Rejects arena bindings) state fun found after => calm after ∧ found = type := by
  have hbelow : ∀ below, (Place.expression, below) ∈ (NodeKind.expression expression).places →
      Answers arena bindings calm typeOf below := fun below hm => h .expression below hm (.inl rfl)
  cases expression with
  | literal value word => exact ⟨hc, (ht.derives hk).symm⟩
  | name word =>
    obtain ⟨target, hb, htarget⟩ := ht.derives hk
    obtain ⟨definition, hdefinition⟩ := (hbound id (Arena.index_lt_size hk)).exists_definition hb
    simp only [expressionStep, hb]
    refine (hd target definition (Arena.kind?_of_definition? hdefinition) state hc).mono
      fun found after ha => ⟨ha.1, ha.2.unique htarget⟩
  | call callee arguments =>
    exact callType_answers hd hbound hk ht
      (fun argument hm => hbelow argument (List.mem_map_of_mem hm)) hc
  | binary operator left right =>
    obtain ⟨leftType, rightType, hleft, hright, hcombined⟩ := ht.derives hk
    simp only [expressionStep, Pass.runs_bind]
    refine (hbelow left (by simp [NodeKind.places, Expression.children]) state hc).mono
      fun leftFound between hb => ?_
    refine (hbelow right (by simp [NodeKind.places, Expression.children]) between hb.1).mono
      fun rightFound reached ha => ?_
    obtain rfl := hb.2.unique hleft
    obtain rfl := ha.2.unique hright
    refine (binaryType_runs fun hnone => ?_).mono fun found after hr => ?_
    · rw [hnone] at hcombined
      cases hcombined
    · obtain ⟨rfl, hfound⟩ := hr
      exact ⟨ha.1, Option.some.inj (hfound.symm.trans hcombined)⟩
  | unary operator operand =>
    obtain ⟨_, hoperand, happlied⟩ := ht.derives hk
    obtain ⟨rfl, rfl⟩ := applied?_eq_some_iff.mp happlied
    simp only [expressionStep, Pass.runs_bind]
    refine (hbelow operand (by simp [NodeKind.places, Expression.children]) state hc).mono
      fun found after ha => ?_
    obtain rfl := ha.2.unique hoperand
    simpa using ha.1
  | block expressions =>
    obtain ⟨final, hfinal, htype⟩ := ht.derives hk
    simp only [expressionStep, Pass.runs_bind]
    refine (lastType_answers
      (fun below hm => hbelow below (List.mem_map_of_mem hm)) hfinal hc).mono
        fun found after ha => ?_
    obtain ⟨hcalm, found, rfl, hfound⟩ := ha
    exact ⟨hcalm, hfound.unique htype⟩
  | conditional test thenBranch elseBranch =>
    obtain ⟨htest, rfl⟩ := ht.derives hk
    have hparts : ∀ below ∈ test :: thenBranch :: elseBranch.toList,
        Answers arena bindings calm typeOf below := fun below hm =>
      hbelow below (List.mem_map_of_mem hm)
    simp only [expressionStep, Pass.runs_bind, Pass.runs_pure]
    refine (condition_passes (hparts test (by simp)) htest state hc).mono fun _ tested hr => ?_
    refine (hparts thenBranch (by simp) tested hr).mono fun _ chosen hr => ?_
    have hbranches : (elseBranch.toList.forM fun branch => do let _ ← typeOf branch).Runs
        (Rejects arena bindings) chosen fun _ after => calm after :=
      Pass.runs_forM (fun branch hm between hb => Pass.runs_bind.mpr
        ((hparts branch (by simp [hm]) between hb).mono fun _ _ ha => ha.1)) hr.1
    exact hbranches.mono fun _ after ha => ⟨ha, trivial⟩
  | whileLoop test body =>
    obtain ⟨htest, rfl⟩ := ht.derives hk
    simp only [expressionStep, Pass.runs_bind, Pass.runs_pure]
    refine (condition_passes (hbelow test (by simp [NodeKind.places, Expression.children]))
      htest state hc).mono fun _ tested hr => ?_
    refine (hbelow body (by simp [NodeKind.places, Expression.children]) tested hr).mono
      fun _ after ha => ⟨ha.1, trivial⟩
  | forLoop counter low high step body =>
    obtain ⟨hcounter, hlow, hhigh, hstep, rfl⟩ := ht.derives hk
    simp only [expressionStep, Pass.runs_bind, Pass.runs_pure]
    refine (loopPart_passes (h .counter counter (by simp [NodeKind.places]) (.inr rfl)) hcounter
      state hc).mono fun _ counted hr => ?_
    refine (loopPart_passes (hbelow low (by simp [NodeKind.places])) hlow
      counted hr).mono fun _ lowered hr => ?_
    refine (loopPart_passes (hbelow high (by simp [NodeKind.places])) hhigh
      lowered hr).mono fun _ bounded hr => ?_
    refine (loopPart_passes (hbelow step (by simp [NodeKind.places])) hstep
      bounded hr).mono fun _ stepped hr => ?_
    refine (hbelow body (by simp [NodeKind.places]) stepped hr).mono
      fun _ after ha => ⟨ha.1, trivial⟩
  | whereClause inner body =>
    have hbody : HasType arena bindings body type := ht.derives hk
    simp only [expressionStep, Pass.runs_bind]
    refine (hcheck inner (by simp [NodeKind.places]) state hc).mono fun _ listed hl => ?_
    refine (hbelow body (by simp [NodeKind.places]) listed hl).mono
      fun found after ha => ⟨ha.1, ha.2.unique hbody⟩

/-- A definition of a well-typed program passes its check, and so do those of a list. -/
theorem nodeStep_passes {kind : NodeKind} (hw : WellTyped arena bindings)
    (hk : arena.kind? id = some kind)
    (hkind : (∃ members, kind = .definitions members) ∨ ∃ definition, kind = .definition definition)
    (h : ∀ below, (Place.expression, below) ∈ kind.places →
      Answers arena bindings calm typeOf below)
    (hcheck : ∀ below, (Place.definition, below) ∈ kind.places →
      Passes arena bindings calm check below) :
    Passes arena bindings calm (nodeStep arena ofDefinition ofWritten typeOf check) id := by
  intro state hc
  rcases hkind with ⟨members, rfl⟩ | ⟨definition, rfl⟩
  · simp only [nodeStep, hk]
    exact Pass.runs_forM (fun member hm => hcheck member (List.mem_map_of_mem hm)) hc
  · have hlookup := hd id definition hk state hc
    cases definition with
    | var | type | parameter =>
      simp only [nodeStep, hk, Pass.runs_bind, Pass.runs_pure]
      exact hlookup.mono fun _ _ ha => ha.1
    | function name parameters result body =>
      obtain ⟨yielded, hresult, hbody⟩ := hw.body hk
      simp only [nodeStep, hk, Pass.runs_bind]
      refine hlookup.mono fun found between hb => ?_
      obtain ⟨types, written, _, _, hwritten, rfl⟩ := hb.2.derives hk
      simp only [Pass.runs_bind]
      refine (h body (by simp [NodeKind.places]) between hb.1).mono fun type after ha => ?_
      obtain rfl := hwritten.unique hresult
      obtain rfl := ha.2.unique hbody
      simpa using ha.1

end Calls

/-- Behind a call, all types are right and no lookup is under way, and the expressions from a number
on have the types they had in the state of origin. -/
structure Calm (arena : Arena) (bindings : NodeTable NodeId) (last : Nat) (origin state : State) :
    Prop where
  /-- All types are right, and no lookup is under way. -/
  settled : Settled arena bindings state
  /-- The expressions from the number on are left alone. -/
  beyond : ∀ id expression, arena.kind? id = some (.expression expression) → last ≤ id.index →
    state.types.get? id = origin.types.get? id

/-- What leaves expressions alone keeps a state calm, if it keeps it settled. -/
theorem Calm.of_touches {origin : State} (h : Calm arena bindings last origin state)
    (hs : Settled arena bindings after) (ht : Touches arena bindings id state after) :
    Calm arena bindings last origin after :=
  ⟨hs, fun other expression hk hl => (ht.expression hk).trans (h.beyond other expression hk hl)⟩

/-- Keeping the type of a node that is no definition keeps a state settled. -/
theorem record_settles {kind : NodeKind} (hs : Settled arena bindings state)
    (hk : arena.kind? id = some kind) (hkind : ∀ definition, kind ≠ .definition definition)
    (ht : HasType arena bindings id type) (hn : state.types.get? id = none)
    (hsources : ∀ source ∈ kind.sources, (state.types.get? source).isSome) :
    (record arena id type).Runs (Rejects arena bindings) state fun found after =>
      found = type ∧ Settled arena bindings after ∧
        ∀ other, after.types.get? other = if other = id then some type else
          state.types.get? other := by
  refine (record_runs hn).mono fun found after hr => ?_
  obtain ⟨rfl, hb, hkept⟩ := hr
  refine ⟨rfl, ⟨?_, fun other definition ho hbusy => ?_⟩, hkept⟩
  · exact hs.1.store hk ht (fun definition he => absurd he (hkind definition)) hsources hb hkept
  · have hother : other ≠ id := by
      rintro rfl
      exact hkind definition (Option.some.inj (hk.symm.trans ho))
    simp only [State.Busy, hb, hkept, if_neg hother] at hbusy
    exact hs.2 other definition ho hbusy

section WellTyped

variable (htree : arena.IsTree) (hbound : Binding.Bound arena bindings)
  (hw : WellTyped arena bindings)

include htree hbound

/-- Between two calls, a definition is given its type. -/
theorem definitionType_answers {origin : State} {definition : Definition}
    (hfuel : arena.depthBound ≤ fuel + arena.size)
    (hk : arena.kind? id = some (.definition definition)) :
    Answers arena bindings (Calm arena bindings last origin)
      (definitionTypeWithin arena bindings fuel) id := by
  intro state hc
  have hrun := definitionTypeWithin_looksUp htree hbound hfuel hk hc.settled 0
  refine (((lookups_touch fuel).1 id).joins hrun).mono fun found after ha => ?_
  obtain ⟨⟨⟨hsettles, _⟩, htype, _⟩, htouches⟩ := ha
  exact ⟨hc.of_touches (hsettles hc.settled) htouches, htype⟩

include hw

/-- Between two calls, a written type is given its type, whether the definition it belongs to has
been looked up or not. -/
theorem writtenType_runs : ∀ {fuel : Nat} {id : NodeId} {written : WrittenType} {state : State},
    arena.kind? id = some (.type written) → arena.depthBound + id.index + 1 ≤ fuel + arena.size →
    Settled arena bindings state →
    (writtenTypeWithin arena bindings fuel id).Runs (Rejects arena bindings) state
      fun found after => Settled arena bindings after ∧ after.types.get? id = some found := by
  intro fuel
  induction fuel with
  | zero =>
    intro id written state hk hfuel
    have hlt := Arena.index_lt_size hk
    have hdepth := arena.size_lt_depthBound
    omega
  | succ fuel ih =>
    intro id written state hk hfuel hs
    have hwritten : arena.type? id = some written := by simp [Arena.type?, hk]
    simp only [writtenTypeWithin, writtenStep, memoized, Pass.runs_bind, Pass.runs_get]
    cases hn : state.types.get? id with
    | some found => exact ⟨hs, hn⟩
    | none =>
      obtain ⟨type, htype⟩ := hw.total hk rfl
      have hderived := htype.derives hk
      -- what feeds the node does not give it a type, or it would feed itself
      have huntouched : ∀ {source between}, Feeds arena bindings source id →
          Touches arena bindings source state between → between.types.get? id = none := by
        intro source between hf htouches
        rw [htouches.get?_eq fun hr => htype.not_transGen (.tail' hr hf), hn]
      have hfinish : ∀ {between}, Settled arena bindings between →
          between.types.get? id = none →
          (∀ source ∈ (NodeKind.type written).sources, (between.types.get? source).isSome) →
          (record arena id type).Runs (Rejects arena bindings) between
            fun found after => Settled arena bindings after ∧ after.types.get? id = some found := by
        intro between hsettled hnone hsources
        refine (record_settles hsettled hk (by simp) htype hnone hsources).mono
          fun found after hr => ?_
        obtain ⟨rfl, hafter, hkept⟩ := hr
        exact ⟨hafter, by simp [hkept]⟩
      cases written with
      | atom word =>
        simp only [hwritten]
        rw [← hderived]
        exact hfinish hs hn (by simp [NodeKind.sources, WrittenType.children])
      | array length element =>
        obtain ⟨inner, hinner, hbytes, rfl⟩ := hderived
        have hfeeds : Feeds arena bindings element id :=
          ⟨_, hk, .inl (by simp [NodeKind.sources, WrittenType.children])⟩
        obtain ⟨item, hitem⟩ := exists_type_of_mem_sources htree hk (.inr ⟨_, rfl⟩)
          (show element ∈ _ by simp [NodeKind.sources, WrittenType.children])
        have hplace : (Place.type, element) ∈
            (NodeKind.type (.array length element)).places := List.mem_cons_self
        have hlt : element.index < id.index := (htree.suits hk hplace).1
        simp only [hwritten, Pass.runs_bind]
        refine (((lookups_touch fuel).2 element).joins (ih hitem (by omega) hs)).mono
          fun found between hb => ?_
        obtain ⟨⟨hsettled, hkept⟩, htouches⟩ := hb
        obtain rfl := (hsettled.1.sound hkept).unique hinner
        rw [if_pos ((Ty.isSome_size?_array_iff hinner.isMeasured).mpr hbytes)]
        refine hfinish hsettled (huntouched hfeeds htouches) ?_
        simp [NodeKind.sources, WrittenType.children, hkept]
      | name word =>
        obtain ⟨target, hb, htarget⟩ := hderived
        obtain ⟨definition, hdefinition⟩ :=
          (hbound id (Arena.index_lt_size hk)).exists_definition hb
        have hlt := Arena.index_lt_size hk
        simp only [hwritten, hb, Pass.runs_bind]
        have hdeep : arena.depthBound ≤ fuel + arena.size := by omega
        have hrun := definitionTypeWithin_looksUp htree hbound hdeep
          (Arena.kind?_of_definition? hdefinition) hs 0
        refine (((lookups_touch fuel).1 target).joins hrun).mono fun found between hl => ?_
        obtain ⟨⟨⟨hsettles, _⟩, hfound, _⟩, htouches⟩ := hl
        obtain rfl := hfound.unique htarget
        exact hfinish (hsettles hs) (huntouched ⟨_, hk, .inr ⟨word, rfl, hb⟩⟩ htouches)
          (by simp [NodeKind.sources, WrittenType.children])

omit htree hbound in
/-- The type of an expression is kept when it was found, or before. Finding it leaves the expression
itself alone, so it is not kept twice. -/
theorem memoized_answers {origin : State} {expression : Expression} {step : Check Ty}
    (hk : arena.kind? id = some (.expression expression)) (hl : id.index < last)
    (hstep : ∀ state type, Settled arena bindings state → HasType arena bindings id type →
      step.Runs (Rejects arena bindings) state fun found after =>
        Calm arena bindings id.index state after ∧ found = type)
    (hc : Calm arena bindings last origin state) :
    (memoized id (step >>= record arena id)).Runs (Rejects arena bindings) state
      fun found after => Calm arena bindings last origin after ∧
        HasType arena bindings id found := by
  simp only [memoized, Pass.runs_bind, Pass.runs_get]
  cases hn : state.types.get? id with
  | some found => exact ⟨hc, hc.settled.1.sound hn⟩
  | none =>
    obtain ⟨type, htype⟩ := hw.total hk rfl
    simp only [Pass.runs_bind]
    refine (hstep state type hc.settled htype).mono fun found between hb => ?_
    obtain ⟨hcalm, rfl⟩ := hb
    have hnone : between.types.get? id = none :=
      (hcalm.beyond id expression hk (Nat.le_refl _)).trans hn
    refine (record_settles hcalm.settled hk (by simp) htype hnone
      (by simp [NodeKind.sources])).mono fun found after hr => ?_
    obtain ⟨rfl, hsettled, hkept⟩ := hr
    refine ⟨⟨hsettled, fun other item ho hlast => ?_⟩, htype⟩
    have hother : other ≠ id := by
      rintro rfl
      omega
    rw [hkept, if_neg hother, hcalm.beyond other item ho (by omega), hc.beyond other item ho hlast]

/-- Between two calls, an expression is given its type, and a definition or a list of definitions
passes its check; expressions with larger numbers are left alone. -/
theorem within_answers : ∀ (fuel : Nat) (id : NodeId),
    arena.depthBound + id.index + 1 ≤ fuel + arena.size →
    (∀ expression last origin, arena.kind? id = some (.expression expression) → id.index < last →
      Answers arena bindings (Calm arena bindings last origin)
        (expressionTypeWithin arena bindings fuel) id) ∧
    (∀ kind last origin, arena.kind? id = some kind → id.index < last →
      ((∃ members, kind = .definitions members) ∨ ∃ definition, kind = .definition definition) →
      Passes arena bindings (Calm arena bindings last origin) (checkWithin arena bindings fuel)
        id) := by
  intro fuel
  induction fuel with
  | zero =>
    intro id hfuel
    have hdepth := arena.size_lt_depthBound
    omega
  | succ fuel ih =>
    intro id hfuel
    have hd : ∀ last origin id definition, arena.kind? id = some (.definition definition) →
        Answers arena bindings (Calm arena bindings last origin)
          (definitionTypeWithin arena bindings fuel) id :=
      fun _ _ _ _ hk => definitionType_answers htree hbound (by omega) hk
    have htype : ∀ kind place below last origin, arena.kind? id = some kind →
        (place, below) ∈ kind.places → id.index ≤ last → place = .expression ∨ place = .counter →
        Answers arena bindings (Calm arena bindings last origin)
          (expressionTypeWithin arena bindings fuel) below := by
      intro kind place below last origin hk hm hl hp
      obtain ⟨hlt, hsuits⟩ := htree.suits hk hm
      obtain ⟨item, hitem⟩ := hsuits.exists_expression hp
      exact (ih below (by omega)).1 item last origin hitem (Nat.lt_of_lt_of_le hlt hl)
    have hcheck : ∀ kind place below last origin, arena.kind? id = some kind →
        (place, below) ∈ kind.places → id.index ≤ last →
        place = .definitions ∨ place = .definition →
        Passes arena bindings (Calm arena bindings last origin) (checkWithin arena bindings fuel)
          below := by
      intro kind place below last origin hk hm hl hp
      obtain ⟨hlt, found, hfound, hadmits⟩ := htree.suits hk hm
      refine (ih below (by omega)).2 found last origin hfound (Nat.lt_of_lt_of_le hlt hl) ?_
      cases found with
      | definitions members => exact .inl ⟨members, rfl⟩
      | definition definition => exact .inr ⟨definition, rfl⟩
      | expression | type => rcases hp with rfl | rfl <;> cases hadmits
    constructor
    · intro expression last origin hk hl state hc
      simp only [expressionTypeWithin, Arena.expression?_of_kind? hk]
      refine memoized_answers hw hk hl (fun start type hs ht => ?_) hc
      exact expressionStep_answers (hd _ _) hbound hk ht
        (fun place below hm hp => htype _ place below _ _ hk hm (Nat.le_refl _) hp)
        (fun below hm => hcheck _ .definitions below _ _ hk hm (Nat.le_refl _) (.inl rfl))
        ⟨hs, fun _ _ _ _ => rfl⟩
    · intro kind last origin hk hl hkind
      rw [checkWithin]
      exact nodeStep_passes (hd _ _) hw hk hkind
        (fun below hm => htype _ .expression below _ _ hk hm (Nat.le_of_lt hl) (.inl rfl))
        fun below hm => hcheck _ .definition below _ _ hk hm (Nat.le_of_lt hl) (.inr rfl)

/-- The check of any node ends without a fault. -/
theorem check_passes {kind : NodeKind} (hk : arena.kind? id = some kind)
    (hs : Settled arena bindings state) :
    (check arena bindings id).Runs (Rejects arena bindings) state fun _ after =>
      Settled arena bindings after := by
  have hlt := Arena.index_lt_size hk
  have hstart : Calm arena bindings arena.size state state := ⟨hs, fun _ _ _ _ => rfl⟩
  -- the last node is the list of the top-level definitions, so there is room for one more call
  have hroom : (∀ members, kind ≠ .definitions members) → id.index + 2 ≤ arena.size := by
    intro hnot
    obtain ⟨root, _, hsize, hroot⟩ := htree
    obtain ⟨members, hmembers⟩ := hroot.exists_members
    have hother : id.index ≠ root.index := by
      intro he
      obtain rfl := NodeId.eq_of_index he
      exact hnot members (Option.some.inj (hk.symm.trans hmembers))
    omega
  have hdepth := arena.size_lt_depthBound
  obtain ⟨fuel, hfuel⟩ : ∃ less, arena.depthBound = less + 1 := ⟨arena.depthBound - 1, by omega⟩
  have hlist := (within_answers htree hbound hw arena.depthBound id (by omega)).2 kind arena.size
    state hk hlt
  cases kind with
  | definitions members =>
    exact (hlist (.inl ⟨members, rfl⟩) state hstart).mono fun _ _ ha => ha.settled
  | definition definition =>
    exact (hlist (.inr ⟨definition, rfl⟩) state hstart).mono fun _ _ ha => ha.settled
  | expression expression =>
    have hroom := hroom (by simp)
    simp only [check, hfuel, checkWithin, nodeStep, hk, Pass.runs_bind, Pass.runs_pure]
    exact ((within_answers htree hbound hw fuel id (by omega)).1 expression arena.size state hk hlt
      state hstart).mono fun _ _ ha => ha.1.settled
  | type written =>
    have hroom := hroom (by simp)
    simp only [check, hfuel, checkWithin, nodeStep, hk, Pass.runs_bind, Pass.runs_pure]
    exact (writtenType_runs htree hbound hw hk (by omega) hs).mono fun _ _ ha => ha.1

end WellTyped

namespace Request

variable {types : NodeTable Ty} {request : Request} {requests : List Request}

/-- The node of a request stands for what the request asks for. -/
def Fits (arena : Arena) : Request → Prop
  | definition id => ∃ item, arena.kind? id = some (.definition item)
  | written id => ∃ item, arena.kind? id = some (.type item)
  | expression id => ∃ item, arena.kind? id = some (.expression item)
  | check id => ∃ kind, arena.kind? id = some kind

/-- The answer to a request that a table of types has; a check finds no type. -/
def answer (types : NodeTable Ty) : Request → Option Ty
  | definition id | written id | expression id => types.get? id
  | check _ => none

/-- In a typed program, a call is answered from whatever state is settled. -/
theorem run_answers (htree : arena.IsTree) (hbound : Binding.Bound arena bindings)
    (ht : Typed arena bindings types) (h : request.Fits arena)
    (hs : Settled arena bindings state) :
    (request.run arena bindings).Runs (Rejects arena bindings) state fun found after =>
      found = request.answer types ∧ Settled arena bindings after := by
  have hw := ht.wellTyped
  have hstart : Calm arena bindings arena.size state state := ⟨hs, fun _ _ _ _ => rfl⟩
  cases request with
  | definition id =>
    obtain ⟨item, hk⟩ := h
    simp only [run, Pass.runs_bind, Pass.runs_pure]
    refine (definitionType_answers htree hbound (Nat.le_add_right _ _) hk state hstart).mono
      fun found after ha => ⟨?_, ha.1.settled⟩
    exact (ht.get?_eq_some_iff.mpr ha.2).symm
  | written id =>
    obtain ⟨item, hk⟩ := h
    have hlt := Arena.index_lt_size hk
    simp only [run, Pass.runs_bind, Pass.runs_pure]
    refine (writtenType_runs htree hbound hw hk (by omega) hs).mono
      fun found after ha => ⟨?_, ha.1⟩
    exact (ht.get?_eq_some_iff.mpr (ha.1.1.sound ha.2)).symm
  | expression id =>
    obtain ⟨item, hk⟩ := h
    have hlt := Arena.index_lt_size hk
    simp only [run, Pass.runs_bind, Pass.runs_pure]
    refine ((within_answers htree hbound hw _ id (by omega)).1 item arena.size state hk hlt state
      hstart).mono fun found after ha => ⟨?_, ha.1.settled⟩
    exact (ht.get?_eq_some_iff.mpr ha.2).symm
  | check id =>
    obtain ⟨kind, hk⟩ := h
    simp only [run, Pass.runs_bind, Pass.runs_pure]
    exact (check_passes htree hbound hw hk hs).mono fun _ after ha => ⟨rfl, ha⟩

/-- In a typed program, a call ends with its answer in a settled state. -/
theorem run_eq_ok (htree : arena.IsTree) (hbound : Binding.Bound arena bindings)
    (ht : Typed arena bindings types) (h : request.Fits arena)
    (hs : Settled arena bindings state) :
    ∃ after, request.run arena bindings state = .ok (request.answer types) after ∧
      Settled arena bindings after := by
  have hrun := run_answers htree hbound ht h hs
  cases hr : request.run arena bindings state with
  | ok found after =>
    obtain ⟨rfl, hafter⟩ := hrun.of_ok hr
    exact ⟨after, rfl, hafter⟩
  | error diagnostic after => exact absurd ht.wellTyped (hrun.of_error hr).illTyped

/-- Behind calls that were answered, the state is settled. -/
theorem settled_reachedAll (htree : arena.IsTree) (hbound : Binding.Bound arena bindings)
    (ht : Typed arena bindings types) (h : ∀ request ∈ requests, request.Fits arena)
    (hs : Settled arena bindings state) :
    Settled arena bindings (Pass.reachedAll (run arena bindings) requests state) := by
  induction requests generalizing state with
  | nil => exact hs
  | cons request others ih =>
    obtain ⟨after, hr, hafter⟩ := run_eq_ok htree hbound ht (h request List.mem_cons_self) hs
    rw [Pass.reachedAll_cons, hr]
    exact ih (fun other hm => h other (List.mem_cons_of_mem _ hm)) hafter

end Request

/-- In a program that has its types, calls may be made in any order: each of them ends with the type
of its node, and behind it no type is kept but those of the program, and no definition is being
looked up. -/
theorem requests_answered {file : String} {tokens : List Token} {types : NodeTable Ty}
    (hp : parse file tokens = .ok arena) (hb : Binding.ofArena arena = .ok bindings)
    (ht : ofArena arena bindings = .ok types) (earlier : List Request) (request : Request)
    (h : ∀ other ∈ earlier ++ [request], other.Fits arena) :
    ∃ after, request.run arena bindings (Request.behind arena bindings earlier) =
        .ok (request.answer types) after ∧
      ((∃ id, request = .check id) ∨ (request.answer types).isSome = true) ∧
      (∀ id type, after.types.get? id = some type → types.get? id = some type) ∧
      ∀ id definition, arena.kind? id = some (.definition definition) →
        after.resolution id ≠ .inProgress := by
  have htree := parse_isTree hp
  have hbound := Binding.ofArena_bound htree hb
  have htyped := ofArena_typed htree hbound ht
  have hready : (sweep arena bindings).ready 0 0 .initial := ready_initial
  have hinitial : Settled arena bindings .initial := hready.1
  have hbehind : Settled arena bindings (Request.behind arena bindings earlier) :=
    Request.settled_reachedAll htree hbound htyped
      (fun other hm => h other (List.mem_append_left _ hm)) hinitial
  have hfits := h request (by simp)
  obtain ⟨after, hr, hgood, hidle⟩ := Request.run_eq_ok htree hbound htyped hfits hbehind
  refine ⟨after, hr, ?_, ?_, ?_⟩
  · cases request with
    | check id => exact .inl ⟨id, rfl⟩
    | definition id | written id | expression id =>
      obtain ⟨item, hk⟩ := hfits
      exact .inr (htyped.total hk rfl)
  · exact fun id type hf => htyped.get?_eq_some_iff.mpr (hgood.sound hf)
  · intro id definition hk
    rw [ne_eq, resolution_eq_inProgress]
    exact hidle id definition hk

/-- The argument of a recursive call is asked for first, then the program is checked, and then what
was passed on the way is asked for again. -/
theorem requests_answered_of_argument : ∃ tokens arena bindings types after,
    tokenize "test" "fun f(x: t): integer = x[f(x)]; typ t: arr[2] integer" = .ok tokens ∧
      parse "test" tokens = .ok arena ∧ Binding.ofArena arena = .ok bindings ∧
      ofArena arena bindings = .ok types ∧
      (∀ other ∈ [Request.expression ⟨4⟩, .check ⟨11⟩, .written ⟨9⟩] ++ [.expression ⟨6⟩],
        other.Fits arena) ∧
      (Request.expression ⟨6⟩).run arena bindings
          (Request.behind arena bindings [.expression ⟨4⟩, .check ⟨11⟩, .written ⟨9⟩]) =
        .ok (some .integer) after := by
  have hs : ((tokenize "test" "fun f(x: t): integer = x[f(x)]; typ t: arr[2] integer").toOption.any
      fun tokens => (parse "test" tokens).toOption.any fun arena =>
        (Binding.ofArena arena).toOption.any fun bindings =>
          (ofArena arena bindings).toOption.any fun types =>
            decide ((arena.expression? ⟨4⟩).isSome ∧ (arena.kind? ⟨11⟩).isSome ∧
              (arena.type? ⟨9⟩).isSome ∧ (arena.expression? ⟨6⟩).isSome ∧
              types.get? ⟨6⟩ = some .integer)) = true := by
    decide +kernel
  have hok : ∀ {α : Type} {e : Except Diagnostic α} {value : α}, e.toOption = some value →
      e = .ok value := by
    intro α e value h
    cases e <;> cases h
    rfl
  simp only [Option.any_eq_true, decide_eq_true_eq, Option.isSome_iff_exists] at hs
  obtain ⟨tokens, ht, arena, hp, bindings, hb, types, hty, ⟨argument, hargument⟩, hroot,
    ⟨written, hwritten⟩, ⟨body, hbody⟩, htype⟩ := hs
  have hfits : ∀ other ∈ [Request.expression ⟨4⟩, .check ⟨11⟩, .written ⟨9⟩] ++ [.expression ⟨6⟩],
      other.Fits arena := by
    have hargument := Arena.kind?_of_expression? hargument
    have hwritten := Arena.kind?_of_type? hwritten
    have hbody := Arena.kind?_of_expression? hbody
    simp [Request.Fits, hargument, hroot, hwritten, hbody]
  obtain ⟨after, hr, _⟩ := requests_answered (hok hp) (hok hb) (hok hty) _ _ hfits
  rw [Request.answer, htype] at hr
  exact ⟨tokens, arena, bindings, types, after, hok ht, hok hp, hok hb, hok hty, hfits, hr⟩

end Pins.Typing
