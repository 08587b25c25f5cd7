import Mathlib.Data.List.Forall2
import Mathlib.Data.List.Pairwise
import Pins.Binding
import Pins.Proofs.Scoping
import Pins.Proofs.Sweep

/-!
# Bound programs

Binding a program that was read finds nothing wrong with it but names: a name that no scope defines,
one that is defined as something else, or one that a scope defines twice. It stops only if the
program is not well-scoped (`ofArena_rejects`); otherwise every reference is bound to the definition
that it refers to, and nothing else is bound (`ofArena_settled`). So every name, every called
function and every written type name is bound to a definition of a kind that it may mean
(`ofArena_bound`), which stands in one of the functions around the node, or outside all functions
(`ofArena_lexical`).

The open scopes have exactly the definitions that the node visited sees (`Models`). The visit of a
subtree leaves the scopes as they were, and the definitions of a list change the innermost scope
only; so every visit is a sweep over the interval of its subtree.
-/

namespace Pins

/-- The kinds of definition that a node may be bound to, if it is bound at all. -/
def NodeKind.accepted? : NodeKind → Option (List DefinitionKind)
  | expression (.name _) => some [.var, .parameter]
  | expression (.call callee _) => if Builtin.isRoutine callee then none else some [.function]
  | type (.name _) => some [.type]
  | _ => none

/-- What a node may be bound to is what it may refer to. -/
theorem NodeKind.accepted?_eq (kind : NodeKind) :
    kind.accepted? = kind.reference?.map Prod.snd := by
  cases kind with
  | definitions | definition => rfl
  | type written => cases written <;> rfl
  | expression item =>
    cases item with
    | call callee arguments =>
      simp only [accepted?, reference?]
      split <;> rfl
    | binary | block | forLoop | whileLoop | name | conditional | literal | unary
    | whereClause => rfl

namespace Binding

variable {arena : Arena} {id : NodeId} {place : Place} {first last : Nat} {state : State}
  {list front members : List NodeId} {lists : List (List NodeId)} {name : String}

/-- What a node is bound to fits the node. -/
def BoundRight (arena : Arena) (id : NodeId) (bound : Option NodeId) : Prop :=
  match (arena.kind? id).bind NodeKind.accepted? with
  | none => bound = none
  | some kinds => ∃ target definition, bound = some target ∧
      arena.definition? target = some definition ∧ definition.kind ∈ kinds

/-- What a node is bound to stands in a function around the node. -/
def Lexical (arena : Arena) (id : NodeId) (bound : Option NodeId) : Prop :=
  ∀ target ∈ bound, ∃ outer, arena.Encloses outer id ∧ arena.Reaches outer target

/-- The faults that binding may find in a program that was read. -/
def Refuses : Fault → Prop
  | .undefinedSymbol _ | .wrongKindReference .. | .duplicateDefinitionInScope _ => True
  | _ => False

/-- A fault of names in a program that is not well-scoped. -/
def Rejects (arena : Arena) (diagnostic : Diagnostic) : Prop :=
  Refuses diagnostic.fault ∧ ¬arena.WellScoped

/-- A node is bound to what it refers to, and is what well-scoped programs are made of. -/
structure Settled (arena : Arena) (id : NodeId) (bound : Option NodeId) : Prop where
  /-- It is bound to what it refers to, and to nothing else. -/
  binds : ∀ target, bound = some target ↔ arena.Resolves id target
  /-- If it is a reference, it is bound. -/
  resolved : ∀ {kind}, arena.kind? id = some kind → kind.reference?.isSome = true →
    bound.isSome = true
  /-- The definitions that it declares have different names. -/
  distinct : ∀ {kind list}, arena.kind? id = some kind → kind.declared? = some list →
    arena.Distinct list

namespace Settled

/-- A node that refers to nothing is settled without being bound, if its definitions have different
names. -/
theorem unbound {kind : NodeKind} (hk : arena.kind? id = some kind) (hr : kind.reference? = none)
    (hd : ∀ list, kind.declared? = some list → arena.Distinct list) : Settled arena id none := by
  refine ⟨fun target => ⟨fun h => (nomatch h), ?_⟩, fun hk' hs => ?_, fun hk' hl => ?_⟩
  · rintro ⟨kind', _, _, _, _, hk', hr', _⟩
    cases hk.symm.trans hk'
    cases hr.symm.trans hr'
  · cases hk.symm.trans hk'
    simp [hr] at hs
  · cases hk.symm.trans hk'
    exact hd _ hl

/-- A node that refers to nothing and declares nothing is settled without being bound. -/
theorem silent {kind : NodeKind} (hk : arena.kind? id = some kind) (hr : kind.reference? = none)
    (hd : kind.declared? = none) : Settled arena id none :=
  .unbound hk hr fun _ hl => nomatch hd.symm.trans hl

/-- A number that stands for nothing is settled without being bound. -/
theorem absent (hk : arena.kind? id = none) : Settled arena id none := by
  refine ⟨fun target => ⟨fun h => (nomatch h), ?_⟩, fun hk' => ?_, fun hk' => ?_⟩
  · rintro ⟨kind, _, _, _, _, hk', _⟩
    cases hk.symm.trans hk'
  · cases hk.symm.trans hk'
  · cases hk.symm.trans hk'

/-- A settled node is bound to a definition that it may be bound to. -/
theorem boundRight {bound : Option NodeId} (h : Settled arena id bound) :
    BoundRight arena id bound := by
  have hnone : (∀ target, ¬arena.Resolves id target) → bound = none := fun hn =>
    Option.eq_none_iff_forall_ne_some.mpr fun target ht => hn target ((h.binds target).mp ht)
  unfold BoundRight
  cases hk : arena.kind? id with
  | none =>
    refine hnone fun target => ?_
    rintro ⟨kind, _, _, _, _, hk', _⟩
    cases hk.symm.trans hk'
  | some kind =>
    rw [Option.bind_some, NodeKind.accepted?_eq]
    cases hr : kind.reference? with
    | none =>
      refine hnone fun target => ?_
      rintro ⟨kind', _, _, _, _, hk', hr', _⟩
      cases hk.symm.trans hk'
      cases hr.symm.trans hr'
    | some reference =>
      obtain ⟨target, rfl⟩ := Option.isSome_iff_exists.mp (h.resolved hk (by rw [hr]; rfl))
      obtain ⟨kind', _, kinds, _, definition, hk', hr', _, _, hf, hm⟩ := (h.binds target).mp rfl
      cases hk.symm.trans hk'
      cases hr.symm.trans hr'
      exact ⟨target, definition, rfl, hf, hm⟩

/-- A settled node is bound to what stands in a function around it. -/
theorem lexical {bound : Option NodeId} (h : Settled arena id bound) : Lexical arena id bound :=
  fun target ht => ((h.binds target).mp ht).reaches

end Settled

/-- A scope has exactly the definitions of a list. -/
def Lists (arena : Arena) (scope : Scope) (list : List NodeId) : Prop :=
  ∀ name id, scope.lookup name = some id ↔ id ∈ list ∧ arena.Names id name

/-- The open scopes have exactly the definitions of lists, from the inside to the outside. -/
def Models (arena : Arena) (scopes : Scopes) (lists : List (List NodeId)) : Prop :=
  List.Forall₂ (Lists arena) (scopes.innermost :: scopes.enclosing) lists

/-- Looking a name up finds what the name means. -/
theorem Models.lookup?_iff {scopes : Scopes} {target : NodeId} (h : Models arena scopes lists) :
    scopes.lookup? name = some target ↔ arena.Means name lists target := by
  unfold Models at h
  rw [Scopes.lookup?]
  generalize scopes.innermost :: scopes.enclosing = all at h
  induction h with
  | nil =>
    constructor
    · intro h
      cases h
    · intro h
      cases h
  | @cons scope list others lists hlist _ ih =>
    rw [List.findSome?_cons]
    cases hl : scope.lookup name with
    | some found =>
      obtain ⟨hm, hn⟩ := (hlist name found).mp hl
      constructor
      · intro hfound
        obtain rfl := Option.some.inj hfound
        exact .here hm hn
      · rintro (⟨hm', hn'⟩ | ⟨hnone, _⟩)
        · exact hl.symm.trans ((hlist name target).mpr ⟨hm', hn'⟩)
        · exact absurd hn (hnone found hm)
    | none =>
      have hnone : ∀ other ∈ list, ¬arena.Names other name := by
        intro other hm hn
        cases hl.symm.trans ((hlist name other).mpr ⟨hm, hn⟩)
      rw [ih]
      constructor
      · exact .outside hnone
      · rintro (⟨hm, hn⟩ | ⟨_, h⟩)
        · exact absurd hn (hnone target hm)
        · exact h

/-- An empty scope has the definitions of the empty list. -/
theorem lists_nil : Lists arena [] [] := fun _ _ => by simp

/-- A new name in a scope is that of one more definition. -/
theorem Lists.snoc {scope : Scope} {definition : Definition} (h : Lists arena scope list)
    (hd : arena.definition? id = some definition) (hnew : scope.lookup definition.name = none) :
    Lists arena ((definition.name, id) :: scope) (list ++ [id]) := by
  have hnames : ∀ name, arena.Names id name ↔ name = definition.name := by
    intro name
    constructor
    · rintro ⟨found, hf, rfl⟩
      cases hd.symm.trans hf
      rfl
    · rintro rfl
      exact ⟨definition, hd, rfl⟩
  intro name target
  rw [List.lookup_cons, List.mem_append, List.mem_singleton]
  by_cases hsame : name = definition.name
  · subst hsame
    have hother : ¬(target ∈ list ∧ arena.Names target definition.name) := fun hlisted =>
      nomatch hnew.symm.trans ((h _ target).mpr hlisted)
    simp only [beq_self_eq_true, Option.some.injEq]
    constructor
    · rintro rfl
      exact ⟨.inr rfl, (hnames _).mpr rfl⟩
    · rintro ⟨hm | rfl, hn⟩
      · exact absurd ⟨hm, hn⟩ hother
      · rfl
  · rw [beq_false_of_ne hsame]
    simp only [h name target]
    constructor
    · rintro ⟨hm, hn⟩
      exact ⟨.inl hm, hn⟩
    · rintro ⟨hm | rfl, hn⟩
      · exact ⟨hm, hn⟩
      · exact absurd ((hnames name).mp hn) hsame

/-- Closing a scope restores the scopes around it, whatever was defined in it. -/
theorem leave_of_enclosing {scopes inner : Scopes}
    (h : inner.enclosing = scopes.enter.enclosing) : inner.leave = scopes := by
  simp only [Scopes.leave, h, Scopes.enter]

/-- The places whose nodes are visited by themselves and keep the scopes: definition lists define in
the scope around them, and parameters are visited with their function. -/
def isSwept : Place → Bool
  | .definition | .type | .expression | .counter => true
  | .definitions | .parameter => false

/-- A visit of an interval keeps the scopes and binds what it passes. -/
def Done (arena : Arena) (first last : Nat) (before after : State) : Prop :=
  after.scopes = before.scopes ∧
    NodeTable.Fills first last (Settled arena) before.bindings after.bindings

/-- Visits of neighbouring intervals of nodes that see the same definitions. -/
def sweep (arena : Arena) (lists : List (List NodeId)) : Sweep State where
  ready first last state := Models arena state.scopes lists ∧ state.bindings.Unset first last
  done := Done arena
  refl _ _ := ⟨rfl, .refl _⟩
  trans hl hr hf hs := ⟨hs.1.trans hf.1, hf.2.trans hl hr hs.2⟩
  ready_front _ hr h := ⟨h.1, h.2.mono (Nat.le_refl _) hr⟩
  ready_behind hl _ h hd := ⟨hd.1 ▸ h.1, (h.2.mono hl (Nat.le_refl _)).behind hd.2⟩

/-- A reference is bound to the definition that it refers to, or refers to none. -/
theorem refer_runs {expected : String} {kinds : List DefinitionKind} {kind : NodeKind}
    (ht : arena.IsTree) (hk : arena.kind? id = some kind)
    (hr : kind.reference? = some (name, kinds)) (hsees : arena.Sees lists id)
    (hmodels : Models arena state.scopes lists) (hu : state.bindings.get? id = none) :
    Pass.Runs (Rejects arena) (refer arena id name expected kinds) state fun _ after =>
      Done arena id.index (id.index + 1) state after := by
  -- what the node refers to is what looking its name up finds, if that is of an accepted kind
  have hresolves : ∀ target, arena.Resolves id target ↔ state.scopes.lookup? name = some target ∧
      ∃ definition, arena.definition? target = some definition ∧ definition.kind ∈ kinds := by
    intro target
    rw [hmodels.lookup?_iff]
    constructor
    · rintro ⟨kind', name', kinds', lists', definition, hk', hr', hsees', hmeans, hf, hm⟩
      cases hk.symm.trans hk'
      cases hr.symm.trans hr'
      cases hsees.unique ht hsees'
      exact ⟨hmeans, definition, hf, hm⟩
    · rintro ⟨hmeans, definition, hf, hm⟩
      exact ⟨kind, name, kinds, lists, definition, hk, hr, hsees, hmeans, hf, hm⟩
  have hrejects : (∀ target, ¬arena.Resolves id target) → ¬arena.WellScoped := by
    intro hnone hw
    obtain ⟨target, htarget⟩ := hw.resolves hk (by rw [hr]; rfl)
    exact hnone target htarget
  simp only [refer, Pass.runs_bind, Pass.runs_get]
  cases hl : state.scopes.lookup? name with
  | none =>
    refine ⟨trivial, hrejects fun target htarget => ?_⟩
    cases hl.symm.trans ((hresolves target).mp htarget).1
  | some target =>
    obtain ⟨_, definition, hf, rfl⟩ := (hmodels.lookup?_iff.mp hl).exists_mem
    simp only [hf]
    split
    · next hm =>
      obtain ⟨bindings, hs⟩ := NodeTable.exists_store? target hu
      simp only [hs, Pass.runs_set]
      refine ⟨rfl, .store hs ⟨fun other => ?_, fun _ _ => rfl, fun hk' hd => ?_⟩⟩
      · rw [hresolves other, hl]
        constructor
        · rintro ⟨rfl⟩
          exact ⟨rfl, definition, hf, hm⟩
        · exact And.left
      · cases hk.symm.trans hk'
        cases kind with
        | definitions | definition => cases hr
        | expression | type => cases hd
    · next hm =>
      refine ⟨trivial, hrejects fun other hother => hm ?_⟩
      obtain ⟨hl', definition', hf', hm'⟩ := (hresolves other).mp hother
      cases hl.symm.trans hl'
      cases hf.symm.trans hf'
      exact hm'

/-- Of a list that is declared together, the definitions enter the innermost scope one by one, or
two of them have one name. -/
theorem defineAll_runs (hlist : ¬arena.Distinct (front ++ members) → ¬arena.WellScoped)
    (hd : ∀ id ∈ members, (arena.definition? id).isSome)
    (hi : Lists arena state.scopes.innermost front) (hfront : arena.Distinct front) :
    Pass.Runs (Rejects arena) (members.forM (define arena)) state fun _ after =>
      after.bindings = state.bindings ∧ after.scopes.enclosing = state.scopes.enclosing ∧
        Lists arena after.scopes.innermost (front ++ members) ∧
        arena.Distinct (front ++ members) := by
  induction members generalizing front state with
  | nil => simpa using ⟨hi, hfront⟩
  | cons member others ih =>
    obtain ⟨definition, hf⟩ := Option.isSome_iff_exists.mp (hd member List.mem_cons_self)
    simp only [List.forM_eq_forM, List.forM_cons, Pass.runs_bind] at ih ⊢
    simp only [define, hf, Pass.runs_bind, Pass.runs_get, Scopes.define]
    cases hnew : state.scopes.innermost.lookup definition.name with
    | some existing =>
      obtain ⟨hm, hn⟩ := (hi _ existing).mp hnew
      refine ⟨trivial, hlist fun hdistinct => ?_⟩
      exact (List.pairwise_append.mp hdistinct).2.2 existing hm member List.mem_cons_self _ hn
        ⟨definition, hf, rfl⟩
    | none =>
      simp only [Pass.runs_set]
      have hdistinct : arena.Distinct (front ++ [member]) := by
        refine List.pairwise_append.mpr ⟨hfront, List.pairwise_singleton _ _, ?_⟩
        intro other hm found hfound name hn hn'
        obtain rfl := List.mem_singleton.mp hfound
        obtain ⟨definition', hf', rfl⟩ := hn'
        cases hf.symm.trans hf'
        cases hnew.symm.trans ((hi _ other).mpr ⟨hm, hn⟩)
      have hsplit : front ++ member :: others = (front ++ [member]) ++ others := by simp
      rw [hsplit] at hlist ⊢
      exact ih hlist (fun id hm => hd id (List.mem_cons_of_mem _ hm)) (hi.snoc hf hnew) hdistinct

/-- A step in a scope of its own keeps the scopes if it keeps those around its own. -/
theorem inScope_runs {step : Bind Unit}
    (h : step.Runs (Rejects arena) { state with scopes := state.scopes.enter } fun _ after =>
      after.scopes.enclosing = state.scopes.enter.enclosing ∧
        NodeTable.Fills first last (Settled arena) state.bindings after.bindings) :
    (inScope step).Runs (Rejects arena) state fun _ after => Done arena first last state after := by
  simp only [inScope, Pass.runs_bind, Pass.runs_modify, Pass.runs_leaving]
  exact h.mono fun _ after ha => ⟨leave_of_enclosing ha.1, ha.2⟩

/-- A node that stays unbound is settled behind the forest below it. -/
theorem fills_closed {bindings after : NodeTable NodeId} (hs : Settled arena id none)
    (hle : first ≤ id.index) (hu : bindings.Unset first (id.index + 1))
    (hd : NodeTable.Fills first id.index (Settled arena) bindings after) :
    NodeTable.Fills first (id.index + 1) (Settled arena) bindings after := by
  refine hd.trans hle (Nat.le_succ _) (.skip ?_ fun other hf hl => ?_)
  · exact (hu.mono hle (Nat.le_refl _)).behind hd
  · obtain rfl : other = id := NodeId.eq_of_index (by omega)
    exact hs

/-- A definition list is visited in a scope without names, and leaves its definitions there. -/
def VisitsDefinitions (arena : Arena) (lists : List (List NodeId)) (visit : NodeId → Bind Unit)
    (id : NodeId) : Prop :=
  ∀ start members, arena.Subtree .definitions start id →
    arena.kind? id = some (.definitions members) → arena.Sees (members :: lists) id →
    ∀ state : State, state.scopes.innermost = [] →
      List.Forall₂ (Lists arena) state.scopes.enclosing lists →
      state.bindings.Unset start (id.index + 1) →
      (visit id).Runs (Rejects arena) state fun _ after =>
        after.scopes.enclosing = state.scopes.enclosing ∧
          Models arena after.scopes (members :: lists) ∧
          NodeTable.Fills start (id.index + 1) (Settled arena) state.bindings after.bindings

section Node

variable {visit : NodeId → Bind Unit} {kind : NodeKind} (ht : arena.IsTree)
  (hsees : arena.Sees lists id)
  (hvisit : ∀ place below lists, below.index < id.index → isSwept place = true →
    arena.Sees lists below → (sweep arena lists).Visits arena (Rejects arena) visit place below)
  (hlist : ∀ below lists, below.index < id.index → VisitsDefinitions arena lists visit below)

include hvisit

/-- The forest below a node is visited in its order. -/
theorem children_run {places : List (Place × NodeId)} (hf : arena.Forest first places last)
    (hlast : last ≤ id.index) (hp : ∀ member ∈ places, isSwept member.1 = true)
    (hin : ∀ member ∈ places, arena.Sees lists member.2)
    (hr : (sweep arena lists).ready first last state) :
    Pass.Runs (Rejects arena) ((places.map Prod.snd).forM visit) state fun _ after =>
      Done arena first last state after := by
  refine (sweep arena lists).runs_forM hf (fun place below hm => ?_) hr
  obtain ⟨_, _, _, hl⟩ := hf.subtree hm
  exact hvisit place below lists (by omega) (hp _ hm) (hin _ hm)

include hsees

/-- A node that refers to nothing and declares nothing is visited by visiting the forest below
it. -/
theorem plain_runs (hk : arena.kind? id = some kind) (hn : kind.reference? = none)
    (hd : kind.declared? = none) (ho : ∀ below, arena.opened kind below = [])
    (hf : arena.Forest first kind.places id.index)
    (hp : ∀ member ∈ kind.places, isSwept member.1 = true)
    (hr : (sweep arena lists).ready first (id.index + 1) state) :
    Pass.Runs (Rejects arena) ((kind.places.map Prod.snd).forM visit) state fun _ after =>
      Done arena first (id.index + 1) state after := by
  have hready := (sweep arena lists).ready_front hf.le (Nat.le_succ _) hr
  have hin : ∀ member ∈ kind.places, arena.Sees lists member.2 := fun member hm =>
    hsees.plain hk (ho _) ((NodeKind.mem_children_iff kind _).mpr (List.mem_map_of_mem hm))
  refine (children_run hvisit hf (Nat.le_refl _) hp hin hready).mono fun _ after ha => ?_
  exact ⟨ha.1, fills_closed (.silent hk hn hd) hf.le hr.2 ha.2⟩

include ht

/-- A written type is bound if it is a name, and visited below otherwise. -/
theorem visitWritten_runs {written : WrittenType} (hk : arena.kind? id = some (.type written))
    (hf : arena.Forest first (NodeKind.type written).places id.index)
    (hr : (sweep arena lists).ready first (id.index + 1) state) :
    (visitWritten arena visit id written).Runs (Rejects arena) state fun _ after =>
      Done arena first (id.index + 1) state after := by
  cases written with
  | atom word | array size element =>
    have hplain := plain_runs hsees hvisit hk rfl rfl (fun _ => rfl) hf
      (by simp [NodeKind.places, WrittenType.children, isSwept]) hr
    simpa [visitWritten, NodeKind.places, WrittenType.children] using hplain
  | name word =>
    simp only [NodeKind.places, WrittenType.children, List.map_nil, Arena.forest_nil_iff] at hf
    subst hf
    exact refer_runs ht hk rfl hsees hr.1 (hr.2 id (Nat.le_refl _) (Nat.lt_succ_self _))

omit ht hsees in
/-- The written types of parameters are visited; the parameters themselves are never bound. -/
theorem parameterTypes_run {parameters : List NodeId}
    (hf : arena.Forest first (parameters.map (.parameter, ·)) last) (hlast : last ≤ id.index)
    (hin : ∀ parameter ∈ parameters, arena.Sees lists parameter)
    (hr : (sweep arena lists).ready first last state) :
    Pass.Runs (Rejects arena) ((parameterTypes arena parameters).forM visit) state fun _ after =>
      Done arena first last state after := by
  induction parameters generalizing first state with
  | nil =>
    obtain rfl := Arena.forest_nil_iff.mp hf
    have hdone : Done arena first first state state := (sweep arena lists).refl first state
    simpa [parameterTypes] using hdone
  | cons parameter others ih =>
    obtain ⟨hs, ho⟩ := Arena.forest_cons_iff.mp hf
    obtain ⟨name, written, hd, hw, hi⟩ := hs.parameter
    have hle := hw.le
    have hol := ho.le
    have hstep : parameterTypes arena (parameter :: others) =
        written :: parameterTypes arena others := by
      simp [parameterTypes, hd]
    rw [hstep]
    simp only [List.forM_eq_forM, List.forM_cons, Pass.runs_bind] at ih ⊢
    have hfirst := (sweep arena lists).ready_front (by omega) hol hr
    have hk := Arena.kind?_of_definition? hd
    have hbelow : arena.Sees lists written := (hin parameter List.mem_cons_self).plain hk rfl
      (by simp [NodeKind.children, Definition.children])
    have hwritten := hvisit .type written lists (by omega) rfl hbelow first hw state
      ((sweep arena lists).ready_front (by omega) (by omega) hfirst)
    refine hwritten.mono fun _ between hb => ?_
    rw [hi] at hb
    have hclosed : Done arena first (parameter.index + 1) state between :=
      ⟨hb.1, fills_closed (.silent hk rfl rfl) (by omega) hfirst.2 hb.2⟩
    refine (ih ho (fun other hm => hin other (List.mem_cons_of_mem _ hm))
      ((sweep arena lists).ready_behind (by omega) hol hr hclosed)).mono fun _ after ha => ?_
    exact (sweep arena lists).trans (by omega) hol hclosed ha

omit ht in
/-- A function binds its signature outside and its body inside a scope of its parameters. -/
theorem visitFunction_runs {parameters : List NodeId} {result body : NodeId}
    (hk : arena.kind? id = some (.definition (.function name parameters result body)))
    (hf : arena.Forest first
      (NodeKind.definition (.function name parameters result body)).places id.index)
    (hr : (sweep arena lists).ready first (id.index + 1) state) :
    (visitDefinition arena visit (.function name parameters result body)).Runs (Rejects arena)
      state fun _ after => Done arena first (id.index + 1) state after := by
  simp only [NodeKind.places, Arena.forest_append_iff, Arena.forest_cons_iff,
    Arena.forest_nil_iff] at hf
  obtain ⟨middle, hp, hres, hbody, hend⟩ := hf
  have hpl := hp.le
  have hrl := hres.le
  have hbl := hbody.le
  -- the signature stands in front of the body, so it does not see the parameters
  have hsignature : ∀ below ∈ parameters ++ [result], arena.Sees lists below := by
    intro below hm
    have hbehind : below.index < body.index := by
      rcases List.mem_append.mp hm with hm | hm
      · obtain ⟨_, _, _, hl⟩ := hp.subtree (List.mem_map_of_mem hm)
        omega
      · obtain rfl := List.mem_singleton.mp hm
        omega
    have hother : below ≠ body := fun he => absurd (he ▸ hbehind) (Nat.lt_irrefl _)
    refine hsees.plain hk (if_neg hother) ?_
    simp only [NodeKind.children, Definition.children]
    rcases List.mem_append.mp hm with hm | hm
    · exact List.mem_append_left _ hm
    · exact List.mem_append_right _ (by simpa using Or.inl (List.mem_singleton.mp hm))
  simp only [visitDefinition, Pass.runs_bind]
  -- the result type stands behind the parameters and is visited in front of them
  have hready : (sweep arena lists).ready middle (result.index + 1) state :=
    ⟨hr.1, hr.2.mono hpl (by omega)⟩
  refine (hvisit .type result lists (by omega) rfl (hsignature result (by simp)) middle hres state
    hready).mono fun _ typed htyped => ?_
  have hparameters : (sweep arena lists).ready first middle typed :=
    ⟨htyped.1 ▸ hr.1, (hr.2.mono (Nat.le_refl _) (by omega)).front htyped.2⟩
  refine (parameterTypes_run hvisit hp (by omega)
    (fun parameter hm => hsignature parameter (List.mem_append_left _ hm)) hparameters).mono
      fun _ signed hs => ?_
  have hsigned : Done arena first (result.index + 1) state signed :=
    ⟨hs.1.trans htyped.1, htyped.2.trans_back hpl (by omega) hs.2⟩
  have hbehind : signed.bindings.Unset (result.index + 1) id.index :=
    (hr.2.mono (by omega) (Nat.le_succ _)).behind hsigned.2
  have hdefinitions : ∀ parameter ∈ parameters, (arena.definition? parameter).isSome := by
    intro parameter hm
    obtain ⟨_, hsub, _, _⟩ := hp.subtree (List.mem_map_of_mem hm)
    obtain ⟨_, _, hdef, _⟩ := hsub.parameter
    simp [hdef]
  let inner : State := { signed with scopes := signed.scopes.enter }
  have hdefined : Pass.Runs (Rejects arena) (parameters.forM (define arena)) inner fun _ after =>
      after.bindings = inner.bindings ∧ after.scopes.enclosing = inner.scopes.enclosing ∧
        Lists arena after.scopes.innermost ([] ++ parameters) ∧
        arena.Distinct ([] ++ parameters) :=
    defineAll_runs (fun hn hw => hn (hw.distinct hk rfl)) hdefinitions lists_nil .nil
  simp only [inScope, Pass.runs_bind, Pass.runs_modify, Pass.runs_leaving]
  refine hdefined.mono fun _ defined hd => ?_
  have hmodels : Models arena defined.scopes (parameters :: lists) := by
    have hinner : inner.scopes.enclosing = state.scopes.innermost :: state.scopes.enclosing := by
      rw [← hsigned.1]
      rfl
    refine List.Forall₂.cons hd.2.2.1 ?_
    rw [hd.2.1, hinner]
    exact hr.1
  have hbodyReady : (sweep arena (parameters :: lists)).ready (result.index + 1) (body.index + 1)
      defined :=
    ⟨hmodels, by rw [hd.1]; exact hbehind.mono (Nat.le_refl _) (by omega)⟩
  refine (hvisit .expression body (parameters :: lists) (by omega) rfl (hsees.body hk) _ hbody
    defined hbodyReady).mono fun _ after ha => ?_
  have hfills : NodeTable.Fills (result.index + 1) id.index (Settled arena) signed.bindings
      after.bindings := by
    have hfills := ha.2
    rwa [hd.1, hend] at hfills
  have hsettled : Settled arena id none := .unbound hk rfl fun list hl => by
    cases hl
    exact hd.2.2.2
  refine ⟨?_, fills_closed hsettled (by omega) hr.2
    (hsigned.2.trans (by omega) (by omega) hfills)⟩
  have henclosing : after.scopes.enclosing = signed.scopes.enter.enclosing := by
    rw [ha.1, hd.2.1]
  exact (leave_of_enclosing henclosing).trans hsigned.1

omit ht in
/-- A definition is visited; a parameter that is met by itself is left alone. -/
theorem visitDefinition_runs {definition : Definition}
    (hk : arena.kind? id = some (.definition definition))
    (hd : definition.kind ≠ .parameter)
    (hf : arena.Forest first (NodeKind.definition definition).places id.index)
    (hr : (sweep arena lists).ready first (id.index + 1) state) :
    (visitDefinition arena visit definition).Runs (Rejects arena) state fun _ after =>
      Done arena first (id.index + 1) state after := by
  cases definition with
  | function name parameters result body => exact visitFunction_runs hsees hvisit hk hf hr
  | var name written | type name written =>
    have hplain := plain_runs hsees hvisit hk rfl rfl (fun _ => rfl) hf
      (by simp [NodeKind.places, isSwept]) hr
    simpa [visitDefinition, NodeKind.places] using hplain
  | parameter name written => exact absurd rfl hd

/-- The arguments of a call are visited behind the binding of its name. -/
theorem visitCall_runs {callee : String} {arguments : List NodeId}
    (hk : arena.kind? id = some (.expression (.call callee arguments)))
    (hf : arena.Forest first (NodeKind.expression (.call callee arguments)).places id.index)
    (hr : (sweep arena lists).ready first (id.index + 1) state) :
    (visitExpression arena visit id (.call callee arguments)).Runs (Rejects arena) state
      fun _ after => Done arena first (id.index + 1) state after := by
  have hp : ∀ member ∈ (NodeKind.expression (.call callee arguments)).places,
      isSwept member.1 = true := by
    simp [NodeKind.places, Expression.children, isSwept]
  have harguments : ((NodeKind.expression (.call callee arguments)).places.map Prod.snd) =
      arguments := by
    simp [NodeKind.places, Expression.children, Function.comp_def]
  have hle := hf.le
  by_cases hb : Builtin.isRoutine callee = true
  · have hplain := plain_runs hsees hvisit hk (by simp [NodeKind.reference?, hb]) rfl
      (fun _ => rfl) hf hp hr
    simpa [visitExpression, hb, harguments] using hplain
  · have hn : state.bindings.get? id = none := hr.2 id hle (Nat.lt_succ_self _)
    have hreference : (NodeKind.expression (.call callee arguments)).reference? =
        some (callee, [.function]) := by simp [NodeKind.reference?, hb]
    simp only [visitExpression, hb, Bool.false_eq_true, if_false, Pass.runs_bind]
    refine (refer_runs ht hk hreference hsees hr.1 hn).mono fun _ referred hd => ?_
    have hready : (sweep arena lists).ready first id.index referred :=
      ⟨hd.1 ▸ hr.1, (hr.2.mono (Nat.le_refl _) (Nat.le_succ _)).front hd.2⟩
    have hin : ∀ member ∈ (NodeKind.expression (.call callee arguments)).places,
        arena.Sees lists member.2 := fun member hm =>
      hsees.plain hk rfl ((NodeKind.mem_children_iff _ _).mpr (List.mem_map_of_mem hm))
    have hrun := children_run hvisit hf (Nat.le_refl _) hp hin hready
    rw [harguments] at hrun
    exact hrun.mono fun _ after ha =>
      ⟨ha.1.trans hd.1, hd.2.trans_back hle (Nat.le_succ _) ha.2⟩

omit ht hsees in
/-- A definition list enters its names, then visits its members. -/
theorem visitMembers_runs (hsees : arena.Sees (members :: lists) id)
    (hk : arena.kind? id = some (.definitions members))
    (hf : arena.Forest first (NodeKind.definitions members).places id.index)
    (hi : state.scopes.innermost = [])
    (houter : List.Forall₂ (Lists arena) state.scopes.enclosing lists)
    (hu : state.bindings.Unset first (id.index + 1)) :
    (visitNode arena visit id).Runs (Rejects arena) state fun _ after =>
      after.scopes.enclosing = state.scopes.enclosing ∧
        Models arena after.scopes (members :: lists) ∧
        NodeTable.Fills first (id.index + 1) (Settled arena) state.bindings after.bindings := by
  have hmembers : ((NodeKind.definitions members).places.map Prod.snd) = members := by
    simp [NodeKind.places, Function.comp_def]
  have hdefinitions : ∀ member ∈ members, (arena.definition? member).isSome := by
    intro member hm
    obtain ⟨_, hsub, _, _⟩ := hf.subtree (List.mem_map_of_mem hm)
    exact hsub.isSome_definition?
  have hdefined : Pass.Runs (Rejects arena) (members.forM (define arena)) state fun _ after =>
      after.bindings = state.bindings ∧ after.scopes.enclosing = state.scopes.enclosing ∧
        Lists arena after.scopes.innermost ([] ++ members) ∧ arena.Distinct ([] ++ members) :=
    defineAll_runs (fun hn hw => hn (hw.distinct hk rfl)) hdefinitions (hi ▸ lists_nil) .nil
  simp only [visitNode, hk, Pass.runs_bind]
  refine hdefined.mono fun _ defined hd => ?_
  have hmodels : Models arena defined.scopes (members :: lists) :=
    List.Forall₂.cons hd.2.2.1 (by rw [hd.2.1]; exact houter)
  have hready : (sweep arena (members :: lists)).ready first id.index defined :=
    ⟨hmodels, by rw [hd.1]; exact hu.mono (Nat.le_refl _) (Nat.le_succ _)⟩
  have hin : ∀ member ∈ (NodeKind.definitions members).places,
      arena.Sees (members :: lists) member.2 := fun member hm =>
    hsees.plain hk rfl ((NodeKind.mem_children_iff _ _).mpr (List.mem_map_of_mem hm))
  have hrun := children_run hvisit hf (Nat.le_refl _) (by simp [NodeKind.places, isSwept]) hin
    hready
  rw [hmembers] at hrun
  refine hrun.mono fun _ after ha => ?_
  have hfills : NodeTable.Fills first id.index (Settled arena) state.bindings after.bindings :=
    hd.1 ▸ ha.2
  have hsettled : Settled arena id none := .unbound hk rfl fun list hl => by
    cases hl
    exact hd.2.2.2
  exact ⟨by rw [ha.1, hd.2.1], ha.1 ▸ hmodels, fills_closed hsettled hf.le hu hfills⟩

omit ht in
include hlist in
/-- The definitions of a where clause are visited before the expression in front of them. -/
theorem visitWhere_runs {inner body : NodeId}
    (hk : arena.kind? id = some (.expression (.whereClause inner body)))
    (hf : arena.Forest first (NodeKind.expression (.whereClause inner body)).places id.index)
    (hr : (sweep arena lists).ready first (id.index + 1) state) :
    (visitExpression arena visit id (.whereClause inner body)).Runs (Rejects arena) state
      fun _ after => Done arena first (id.index + 1) state after := by
  simp only [NodeKind.places, Arena.forest_cons_iff, Arena.forest_nil_iff] at hf
  obtain ⟨hbody, hinner, hend⟩ := hf
  have hbl := hbody.le
  have hil := hinner.le
  obtain ⟨members, hd⟩ := hinner.exists_members
  obtain ⟨hinnerSees, hbodySees⟩ := hsees.whereClause hk hd
  have hscope : Pass.Runs (Rejects arena) (inScope do visit inner; visit body) state
      fun _ after => Done arena first id.index state after := by
    refine inScope_runs ?_
    rw [Pass.runs_bind]
    refine (hlist inner lists (by omega) _ members hinner hd hinnerSees
      { state with scopes := state.scopes.enter } rfl hr.1
      (hr.2.mono (by omega) (by omega))).mono fun _ listed hl => ?_
    have hbodyReady : (sweep arena (members :: lists)).ready first (body.index + 1) listed :=
      ⟨hl.2.1, (hr.2.mono (Nat.le_refl _) (by omega)).front hl.2.2⟩
    refine (hvisit .expression body (members :: lists) (by omega) rfl hbodySees _ hbody listed
      hbodyReady).mono fun _ after ha => ?_
    rw [← hend]
    exact ⟨by rw [ha.1, hl.1], hl.2.2.trans_back (by omega) (by omega) ha.2⟩
  simp only [visitExpression]
  refine hscope.mono fun _ after ha => ?_
  exact ⟨ha.1, fills_closed (.silent hk rfl rfl) (by omega) hr.2 ha.2⟩

include hlist in
/-- An expression is visited: names and calls are bound, where clauses open a scope, and all other
expressions are visited in their order. -/
theorem visitExpression_runs {expression : Expression}
    (hk : arena.kind? id = some (.expression expression))
    (hf : arena.Forest first (NodeKind.expression expression).places id.index)
    (hr : (sweep arena lists).ready first (id.index + 1) state) :
    (visitExpression arena visit id expression).Runs (Rejects arena) state fun _ after =>
      Done arena first (id.index + 1) state after := by
  cases expression with
  | call callee arguments => exact visitCall_runs ht hsees hvisit hk hf hr
  | name word =>
    simp only [NodeKind.places, Expression.children, List.map_nil, Arena.forest_nil_iff] at hf
    subst hf
    exact refer_runs ht hk rfl hsees hr.1 (hr.2 id (Nat.le_refl _) (Nat.lt_succ_self _))
  | whereClause inner body => exact visitWhere_runs hsees hvisit hlist hk hf hr
  | binary | block | forLoop | whileLoop | conditional | literal | unary =>
    have hplain := plain_runs hsees hvisit hk rfl rfl (fun _ => rfl) hf
      (by simp [NodeKind.places, Expression.children, isSwept]) hr
    simpa [visitExpression, NodeKind.places, Expression.children, Function.comp_def] using hplain

end Node

/-- Every subtree but a definition list is visited as a sweep, as long as the bound on the depth is
above its root. -/
theorem visitWithin_visits (ht : arena.IsTree) : ∀ (fuel : Nat) (id : NodeId)
    (lists : List (List NodeId)), id.index < fuel →
    (∀ place, isSwept place = true → arena.Sees lists id →
      (sweep arena lists).Visits arena (Rejects arena) (visitWithin arena fuel) place id) ∧
    VisitsDefinitions arena lists (visitWithin arena fuel) id := by
  intro fuel
  induction fuel with
  | zero => intro id lists h; omega
  | succ fuel ih =>
    intro id lists hid
    have hvisit : ∀ place below lists, below.index < id.index → isSwept place = true →
        arena.Sees lists below →
        (sweep arena lists).Visits arena (Rejects arena) (visitWithin arena fuel) place below :=
      fun place below lists hb hp hbelow => (ih below lists (by omega)).1 place hp hbelow
    have hlist : ∀ below lists, below.index < id.index →
        VisitsDefinitions arena lists (visitWithin arena fuel) below :=
      fun below lists hb => (ih below lists (by omega)).2
    constructor
    · intro place hp hsees start hsub state hr
      obtain ⟨kind, hk, ha, _, hf⟩ := Arena.subtree_iff.mp hsub
      simp only [visitWithin, visitNode, hk]
      cases kind with
      | definitions members => cases place <;> simp [Place.admits, isSwept] at ha hp
      | definition definition =>
        refine visitDefinition_runs hsees hvisit hk (fun hparameter => ?_) hf hr
        cases definition <;> cases place <;>
          simp [Place.admits, isSwept, Definition.kind] at ha hp hparameter
      | expression expression => exact visitExpression_runs ht hsees hvisit hlist hk hf hr
      | type written => exact visitWritten_runs ht hsees hvisit hk hf hr
    · intro start members hsub hk hsees state hi houter hu
      obtain ⟨kind, hk', _, _, hf⟩ := Arena.subtree_iff.mp hsub
      cases hk.symm.trans hk'
      exact visitMembers_runs hvisit hsees hk hf hi houter hu

/-- Every node of a program is bound as it should be. -/
def Bound (arena : Arena) (bindings : NodeTable NodeId) : Prop :=
  ∀ id : NodeId, id.index < arena.size → BoundRight arena id (bindings.get? id)

/-- What a reference is bound to is a definition of a kind that it accepts. -/
theorem Bound.exists_target {bindings : NodeTable NodeId} (h : Bound arena bindings)
    {kind : NodeKind} {kinds : List DefinitionKind} (hk : arena.kind? id = some kind)
    (ha : kind.accepted? = some kinds) :
    ∃ target definition, bindings.get? id = some target ∧
      arena.kind? target = some (.definition definition) ∧ definition.kind ∈ kinds := by
  have hright := h id (Arena.index_lt_size hk)
  simp only [BoundRight, hk, Option.bind_some, ha] at hright
  obtain ⟨target, definition, ht, hd, hm⟩ := hright
  exact ⟨target, definition, ht, Arena.kind?_of_definition? hd, hm⟩

/-- The whole program is visited under its top-level definitions. -/
theorem visit_root_runs {root : NodeId} (ht : arena.IsTree) (hroot : arena.root = some root)
    (hs : arena.Subtree .definitions 0 root) (hsize : root.index + 1 = arena.size) :
    (visit arena root).Runs (Rejects arena) .initial fun _ after =>
      ∀ id, Settled arena id (after.bindings.get? id) := by
  have hdepth := arena.size_lt_depthBound
  obtain ⟨members, hk⟩ := hs.exists_members
  refine ((visitWithin_visits ht _ root [] (by omega)).2 0 members hs hk (.root hroot hk) .initial
    rfl .nil NodeTable.unset_empty).mono fun _ after ha id => ?_
  rcases Nat.lt_or_ge id.index (root.index + 1) with hlt | hge
  · exact ha.2.2.inside id (Nat.zero_le _) hlt
  · have hnone : after.bindings.get? id = none := by
      rw [ha.2.2.outside id (.inr hge)]
      exact NodeTable.get?_empty id
    rw [hnone]
    exact .absent (Arena.kind?_eq_none (hsize ▸ hge))

/-- Binding stops for a fault of names, and only in a program that is not well-scoped. -/
theorem ofArena_rejects {diagnostic : Diagnostic} (h : arena.IsTree)
    (hb : ofArena arena = .error diagnostic) : Rejects arena diagnostic := by
  have ⟨root, hroot, hsize, hs⟩ := h
  simp only [ofArena, hroot] at hb
  exact (visit_root_runs h hroot hs hsize).of_map_error hb

/-- The bindings of a program that was read bind every node to what it refers to. -/
theorem ofArena_settled {bindings : NodeTable NodeId} (h : arena.IsTree)
    (hb : ofArena arena = .ok bindings) (id : NodeId) : Settled arena id (bindings.get? id) := by
  have ⟨root, hroot, hsize, hs⟩ := h
  simp only [ofArena, hroot] at hb
  obtain ⟨_, after, hsettled, rfl⟩ := (visit_root_runs h hroot hs hsize).of_map_ok hb
  exact hsettled id

/-- Binding finds only faults of names in a program that was read. -/
theorem ofArena_refuses {diagnostic : Diagnostic} (h : arena.IsTree)
    (hb : ofArena arena = .error diagnostic) : Refuses diagnostic.fault :=
  (ofArena_rejects h hb).1

/-- The bindings of a program that was read bind exactly its references, and bind them right. -/
theorem ofArena_bound {bindings : NodeTable NodeId} (h : arena.IsTree)
    (hb : ofArena arena = .ok bindings) : Bound arena bindings :=
  fun id _ => (ofArena_settled h hb id).boundRight

/-- The bindings of a program that was read bind every reference to what stands in a function around
it, or outside all functions. -/
theorem ofArena_lexical {bindings : NodeTable NodeId} (h : arena.IsTree)
    (hb : ofArena arena = .ok bindings) (id : NodeId) : Lexical arena id (bindings.get? id) :=
  (ofArena_settled h hb id).lexical

/-- No two definitions of a list of a bound program have one name. -/
theorem ofArena_names {id other : NodeId} {list : List NodeId} {kind : NodeKind}
    {bindings : NodeTable NodeId} {definition definition' : Definition} (h : arena.IsTree)
    {node : NodeId} (hk : arena.kind? node = some kind) (hl : kind.declared? = some list)
    (hb : ofArena arena = .ok bindings) (hm : id ∈ list) (hm' : other ∈ list)
    (hd : arena.definition? id = some definition)
    (hd' : arena.definition? other = some definition')
    (hn : definition.name = definition'.name) : id = other := by
  have hdistinct : arena.Distinct list := (ofArena_settled h hb node).distinct hk hl
  have hsymm : Std.Symm fun id other : NodeId =>
      ∀ name, arena.Names id name → ¬arena.Names other name :=
    ⟨fun _ _ h name hother hid => h name hid hother⟩
  by_contra hne
  exact hdistinct.forall hm hm' hne definition.name ⟨definition, hd, rfl⟩
    ⟨definition', hd', hn.symm⟩

end Binding

end Pins
