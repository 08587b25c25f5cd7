import Pins.Proofs.Bound
import Pins.Proofs.Histories
import Pins.Proofs.Progress

/-!
# Balanced scopes

Scopes are opened for the parameters of a function and for a where clause, and are closed again also
when the visit inside them fails. So a visit leaves the scopes as they were, whatever state it
begins in and however it ends. Only the visit of a definition list adds names, those of the list, to
the innermost scope. A reference that is bound stays bound to the same definition
(`scopes_balanced`).
-/

namespace Pins.Binding

variable {arena : Arena} {id : NodeId} {list wider : List NodeId}
  {state before between after : State}

/-- Of the scopes only the innermost one changes, and that only by new names of the definitions of a
list. Bindings stay. -/
structure Adds (arena : Arena) (list : List NodeId) (before after : State) : Prop where
  /-- The scopes around the innermost one are the same. -/
  enclosing : after.scopes.enclosing = before.scopes.enclosing
  /-- Every name that is new to the innermost scope is that of a definition of the list. -/
  innermost : ∃ added, after.scopes.innermost = added ++ before.scopes.innermost ∧
    ∀ entry ∈ added, entry.2 ∈ list ∧ before.scopes.innermost.lookup entry.1 = none ∧
      ∃ definition, arena.definition? entry.2 = some definition ∧ definition.name = entry.1
  /-- What is bound stays bound. -/
  bindings : ∀ reference target, before.bindings.get? reference = some target →
    after.bindings.get? reference = some target

namespace Adds

theorem refl (state : State) : Adds arena list state state :=
  ⟨rfl, ⟨[], rfl, List.forall_mem_nil _⟩, fun _ _ h => h⟩

theorem trans (hf : Adds arena list before between) (hs : Adds arena list between after) :
    Adds arena list before after := by
  obtain ⟨first, hfirst, hall⟩ := hf.innermost
  obtain ⟨second, hsecond, hall'⟩ := hs.innermost
  refine ⟨hs.enclosing.trans hf.enclosing, ⟨second ++ first, ?_, fun entry hm => ?_⟩,
    fun reference target h => hs.bindings reference target (hf.bindings reference target h)⟩
  · rw [hsecond, hfirst, List.append_assoc]
  · rcases List.mem_append.mp hm with hm | hm
    · obtain ⟨hin, hnew, hnamed⟩ := hall' entry hm
      rw [hfirst, List.lookup_append, Option.or_eq_none_iff] at hnew
      exact ⟨hin, hnew.2, hnamed⟩
    · exact hall entry hm

instance : IsPreorder State (Adds arena list) where
  refl := refl
  trans _ _ _ := trans

/-- A list may be taken larger. -/
theorem mono (h : Adds arena list before after) (hw : ∀ member ∈ list, member ∈ wider) :
    Adds arena wider before after := by
  obtain ⟨added, he, hall⟩ := h.innermost
  exact ⟨h.enclosing, ⟨added, he, fun entry hm => ⟨hw _ (hall entry hm).1, (hall entry hm).2⟩⟩,
    h.bindings⟩

/-- Where nothing can be added the scopes are the same. -/
theorem scopes_eq (h : Adds arena [] before after) : after.scopes = before.scopes := by
  obtain ⟨added, he, hall⟩ := h.innermost
  have hnone : added = [] :=
    List.eq_nil_iff_forall_not_mem.mpr fun entry hm =>
      List.not_mem_nil (hall entry hm).1
  have henclosing := h.enclosing
  rw [hnone, List.nil_append] at he
  cases hb : before.scopes
  cases ha : after.scopes
  simp_all

end Adds

/-- The members of the node, if it is a definition list. -/
def listed (arena : Arena) (id : NodeId) : List NodeId :=
  match arena.kind? id with
  | some (.definitions members) => members
  | _ => []

section Steps

theorem fail_adds {α : Type} {fault : Fault} :
    Pass.Moves (Adds arena list) (fail arena id fault : Bind α) :=
  .throw _

/-- Binding a reference leaves the scopes and the other references alone. -/
theorem refer_adds {name expected : String} {accepted : List DefinitionKind} :
    Pass.Moves (Adds arena list) (refer arena id name expected accepted) := by
  intro state
  rw [refer, Pass.run_get_bind]
  cases state.scopes.lookup? name with
  | none => exact fail_adds state
  | some target =>
    dsimp only
    cases arena.definition? target with
    | none => exact fail_adds state
    | some definition =>
      dsimp only
      split
      · cases hs : state.bindings.store? id target with
        | none => exact fail_adds state
        | some bindings =>
          exact ⟨rfl, ⟨[], rfl, List.forall_mem_nil _⟩, fun _ _ h => NodeTable.get?_of_store? hs h⟩
      · exact fail_adds state

/-- Defining a name adds it to the innermost scope. -/
theorem define_adds (hm : id ∈ list) : Pass.Moves (Adds arena list) (define arena id) := by
  intro state
  rw [define]
  cases hd : arena.definition? id with
  | none => exact fail_adds state
  | some definition =>
    dsimp only
    rw [Pass.run_get_bind, Scopes.define]
    cases hl : state.scopes.innermost.lookup definition.name with
    | some existing => exact fail_adds state
    | none =>
      refine ⟨rfl, ⟨[(definition.name, id)], rfl, fun entry he => ?_⟩, fun _ _ h => h⟩
      obtain rfl := List.mem_singleton.mp he
      exact ⟨hm, hl, definition, hd, rfl⟩

/-- What is added in a scope of its own is gone behind it, whether the step inside fails or not. -/
theorem inScope_adds {step : Bind Unit} (h : Pass.Moves (Adds arena list) step) :
    Pass.Moves (Adds arena []) (inScope step) := by
  intro state
  have hinside := h { state with scopes := state.scopes.enter }
  let leave : State → State := fun after => { after with scopes := after.scopes.leave }
  have hreached : Pass.reached (inScope step state) =
      leave (Pass.reached (step { state with scopes := state.scopes.enter })) :=
    Pass.reached_leaving leave step { state with scopes := state.scopes.enter }
  rw [hreached]
  have hscopes := leave_of_enclosing hinside.enclosing
  exact ⟨congrArg Scopes.enclosing hscopes, ⟨[], congrArg Scopes.innermost hscopes,
    List.forall_mem_nil _⟩,
    hinside.bindings⟩

end Steps

section Node

variable {visit : NodeId → Bind Unit} {kind : NodeKind} (ht : arena.IsTree)
  (hvisit : ∀ below, Pass.Moves (Adds arena (listed arena below)) (visit below))

/-- Only where definitions stand together can a definition list stand. -/
theorem listed_of_place (ht : arena.IsTree) (hk : arena.kind? id = some kind) {place : Place}
    {below : NodeId} (hm : (place, below) ∈ kind.places) (hp : place ≠ .definitions) :
    listed arena below = [] := by
  obtain ⟨_, _, hs⟩ := ht.exists_subtree hk
  obtain ⟨_, hsub, _⟩ := hs.child hk hm
  obtain ⟨found, hfound, hadmits, _⟩ := Arena.subtree_iff.mp hsub
  rw [listed, hfound]
  cases found with
  | definitions members => cases place <;> first | exact absurd rfl hp | cases hadmits
  | definition | expression | type => rfl

include hvisit

/-- The visit of a node that is no definition list adds nothing. -/
theorem visit_adds_of_nil {below : NodeId} (h : listed arena below = []) :
    Pass.Moves (Adds arena list) (visit below) :=
  (hvisit below).mono fun _ _ ha => ha.mono (by simp [h])

include ht

/-- The visit of what stands below a node, apart from definitions, adds nothing. -/
theorem visit_adds {place : Place} {below : NodeId} (hk : arena.kind? id = some kind)
    (hm : (place, below) ∈ kind.places) (hp : place ≠ .definitions) :
    Pass.Moves (Adds arena list) (visit below) :=
  visit_adds_of_nil hvisit (listed_of_place ht hk hm hp)

/-- A definition adds nothing: the parameters of a function have a scope of their own. -/
theorem visitDefinition_adds {definition : Definition}
    (hk : arena.kind? id = some (.definition definition)) :
    Pass.Moves (Adds arena []) (visitDefinition arena visit definition) := by
  cases definition with
  | parameter name written => exact .pure _
  | var name written | type name written =>
    exact visit_adds ht hvisit hk List.mem_cons_self (by decide)
  | function name parameters result body =>
    have hresult : (Place.type, result) ∈
        (NodeKind.definition (.function name parameters result body)).places := by
      simp [NodeKind.places]
    have hbody : (Place.expression, body) ∈
        (NodeKind.definition (.function name parameters result body)).places := by
      simp [NodeKind.places]
    refine (visit_adds ht hvisit hk hresult (by decide)).bind fun _ => ?_
    refine (Pass.Moves.forM fun written hm => ?_).bind fun _ =>
      inScope_adds (?_ : Pass.Moves (Adds arena parameters) _)
    · obtain ⟨parameter, _, hfound⟩ := List.mem_filterMap.mp hm
      split at hfound
      · next _ hd =>
        cases hfound
        exact visit_adds ht hvisit (Arena.kind?_of_definition? hd) List.mem_cons_self (by decide)
      · cases hfound
    · exact (Pass.Moves.forM fun parameter hm => define_adds hm).bind fun _ =>
        visit_adds ht hvisit hk hbody (by decide)

/-- An expression adds nothing: the definitions of a where clause have a scope of their own. -/
theorem visitExpression_adds {expression : Expression}
    (hk : arena.kind? id = some (.expression expression)) :
    Pass.Moves (Adds arena []) (visitExpression arena visit id expression) := by
  have hchildren : ∀ below ∈ expression.children,
      (∀ definitions body, expression ≠ .whereClause definitions body) →
      Pass.Moves (Adds arena []) (visit below) := by
    intro below hm hwhere
    have hplaces := (NodeKind.mem_children_iff (.expression expression) below).mp hm
    obtain ⟨⟨place, node⟩, hplace, rfl⟩ := List.mem_map.mp hplaces
    refine visit_adds ht hvisit hk hplace ?_
    rintro rfl
    cases expression <;> simp_all [NodeKind.places]
  cases expression with
  | name word => exact refer_adds
  | call callee arguments =>
    have harguments : Pass.Moves (Adds arena []) (arguments.forM visit) :=
      .forM fun argument hm => hchildren argument hm (by simp)
    simp only [visitExpression]
    split
    · exact harguments
    · exact refer_adds.bind fun _ => harguments
  | whereClause definitions body =>
    refine inScope_adds ((hvisit definitions).bind fun _ => ?_)
    exact visit_adds ht hvisit hk List.mem_cons_self (by decide)
  | binary | block | forLoop | whileLoop | conditional | literal | unary =>
    exact .forM fun below hm => hchildren below hm (by simp)

/-- A written type adds nothing. -/
theorem visitWritten_adds {written : WrittenType} (hk : arena.kind? id = some (.type written)) :
    Pass.Moves (Adds arena []) (visitWritten arena visit id written) := by
  cases written with
  | atom word => exact .pure _
  | array length element => exact visit_adds ht hvisit hk List.mem_cons_self (by decide)
  | name word => exact refer_adds

/-- The visit of a node adds the names of the node, if it is a definition list. -/
theorem visitNode_adds : Pass.Moves (Adds arena (listed arena id)) (visitNode arena visit id) := by
  unfold visitNode
  cases hk : arena.kind? id with
  | none => exact fail_adds
  | some kind =>
    cases kind with
    | definitions members =>
      have hlisted : listed arena id = members := by rw [listed, hk]
      rw [hlisted]
      refine (Pass.Moves.forM fun member hm => define_adds hm).bind fun _ => ?_
      refine .forM fun member hm => ?_
      exact visit_adds ht hvisit hk (List.mem_map_of_mem hm) (by decide)
    | definition definition =>
      exact (visitDefinition_adds ht hvisit hk).mono fun _ _ ha => ha.mono (List.forall_mem_nil _)
    | expression expression =>
      exact (visitExpression_adds ht hvisit hk).mono fun _ _ ha => ha.mono (List.forall_mem_nil _)
    | type written =>
      exact (visitWritten_adds ht hvisit hk).mono fun _ _ ha => ha.mono (List.forall_mem_nil _)

end Node

/-- However deep a visit goes, it adds the names of its node, if that is a definition list. -/
theorem visitWithin_adds (ht : arena.IsTree) (fuel : Nat) (id : NodeId) :
    Pass.Moves (Adds arena (listed arena id)) (visitWithin arena fuel id) := by
  induction fuel generalizing id with
  | zero => exact fail_adds
  | succ fuel ih => exact visitNode_adds ht ih

/-- The state behind visits one after the other, whether they fail or not. -/
def behind (arena : Arena) (visited : List NodeId) : State :=
  Pass.reachedAll (visit arena) visited .initial

/-- Visits leave the one scope open that was open at first. -/
theorem enclosing_behind (ht : arena.IsTree) (visited : List NodeId) :
    (behind arena visited).scopes.enclosing = [] :=
  Pass.reachedAll_kept (fun state => state.scopes.enclosing = [])
    (fun member between hb => (visitWithin_adds ht _ member between).enclosing.trans hb) rfl

/-- What is bound stays bound to the same definition, whatever is visited. -/
theorem bindings_behind (ht : arena.IsTree) (visited further : List NodeId)
    {reference target : NodeId}
    (hb : (behind arena visited).bindings.get? reference = some target) :
    (behind arena (visited ++ further)).bindings.get? reference = some target := by
  rw [behind, Pass.reachedAll_append]
  exact Pass.reachedAll_kept (fun state => state.bindings.get? reference = some target)
    (fun member between h => (visitWithin_adds ht _ member between).bindings _ _ h) hb

/-- Scopes are balanced: from every state, and whether it fails or not, the visit of a node that is
no definition list leaves the scopes as they were, and that of a definition list changes the
innermost one only, by new names of its definitions. What is bound stays bound. So between visits
one scope is open, and bindings are kept through any further visits. -/
theorem scopes_balanced {file : String} {tokens : List Token} (hp : parse file tokens = .ok arena) :
    (∀ (id : NodeId) (state : State),
      ((∀ members, arena.kind? id ≠ some (.definitions members)) →
        (Pass.reached (visit arena id state)).scopes = state.scopes) ∧
      (∀ members, arena.kind? id = some (.definitions members) →
        (Pass.reached (visit arena id state)).scopes.enclosing = state.scopes.enclosing ∧
          ∃ added, (Pass.reached (visit arena id state)).scopes.innermost =
              added ++ state.scopes.innermost ∧
            ∀ entry ∈ added, entry.2 ∈ members ∧
              state.scopes.innermost.lookup entry.1 = none ∧
              ∃ definition, arena.definition? entry.2 = some definition ∧
                definition.name = entry.1) ∧
      ∀ reference target, state.bindings.get? reference = some target →
        (Pass.reached (visit arena id state)).bindings.get? reference = some target) ∧
    ∀ visited : List NodeId, (behind arena visited).scopes.depth = 1 ∧
      ∀ further reference target, (behind arena visited).bindings.get? reference = some target →
        (behind arena (visited ++ further)).bindings.get? reference = some target := by
  have htree := parse_isTree hp
  constructor
  · intro id state
    have hadds : Adds arena (listed arena id) state (Pass.reached (visit arena id state)) :=
      visitWithin_adds htree _ id state
    refine ⟨fun hnot => ?_, fun members hk => ?_, hadds.bindings⟩
    · have hnone : listed arena id = [] := by
        unfold listed
        split
        · next members hk => exact absurd hk (hnot members)
        · rfl
      rw [hnone] at hadds
      exact hadds.scopes_eq
    · rw [listed, hk] at hadds
      exact ⟨hadds.enclosing, hadds.innermost⟩
  · intro visited
    refine ⟨?_, fun further reference target => bindings_behind htree visited further⟩
    rw [Scopes.depth, enclosing_behind htree]
    rfl

/-- The visit of a where clause alone fails in the scope of its definitions, for the name of the
parameter around it, and leaves the one scope that was open. -/
theorem scopes_balanced_of_failure : ∃ tokens arena diagnostic after,
    tokenize "test" "fun f(x: integer): integer = x \x7bwhere var z: integer\x7d" = .ok tokens ∧
      parse "test" tokens = .ok arena ∧
      visit arena ⟨7⟩ .initial = .error diagnostic after ∧
      diagnostic.fault = .undefinedSymbol "x" ∧ after.scopes = .outermost := by
  obtain ⟨compiled, hc, hk, hvisit⟩ : ∃ compiled, Compilation.ofSource "test"
      "fun f(x: integer): integer = x \x7bwhere var z: integer\x7d" = .ok compiled ∧
      compiled.program.arena.kind? ⟨7⟩ = some (.expression (.whereClause ⟨6⟩ ⟨3⟩)) ∧
      (Pass.finalState (visit compiled.program.arena ⟨7⟩) .initial).map (fun _ => ()) =
        .error ⟨.undefinedSymbol "x", compiled.program.arena.position ⟨3⟩⟩ :=
    Compilation.exists_of_any (by decide +kernel)
  obtain ⟨tokens, arena, hs, hp, ha⟩ := Compilation.ofSource_eq_ok hc
  obtain ⟨_, _, _, _, _, _, _, _, he⟩ := Compilation.ofArena_eq_ok ha
  rw [he] at hk hvisit
  have hscopes := ((scopes_balanced hp).1 ⟨7⟩ .initial).1 (by simp [hk])
  rw [Pass.finalState] at hvisit
  cases hr : visit arena ⟨7⟩ .initial with
  | ok value after => simp [hr, Except.map] at hvisit
  | error diagnostic after =>
    rw [hr] at hvisit hscopes
    cases hvisit
    exact ⟨tokens, arena, _, after, hs, hp, hr, rfl, hscopes⟩

end Pins.Binding
