import Mathlib.Data.List.Basic
import Pins.Binding
import Pins.Proofs.Alike

/-!
# Binding alike arenas

A run of binding over one of two alike arenas keeps the scopes that the run over the other one
keeps, with the names changed (`Scopes.renamed`). If the change tells definitions apart that were
told apart before, and gives a reference the name of what it is bound to, the two runs find the same
bindings (`visitWithin_follows`). No case is made for shadowing: a name leads to the first
definition that has it, before the change and behind it.
-/

namespace Pins

@[simp] theorem Definition.name_named (name : String) (definition : Definition) :
    (definition.named name).name = name := by
  cases definition <;> rfl

@[simp] theorem Definition.kind_named (name : String) (definition : Definition) :
    (definition.named name).kind = definition.kind := by
  cases definition <;> rfl

/-- The name of a definition is that of its node. -/
theorem Arena.word_of_definition? {arena : Arena} {id : NodeId} {definition : Definition}
    (hd : arena.definition? id = some definition) : arena.word id = definition.name := by
  simp [word, kind?_of_definition? hd, NodeKind.word?]

namespace Scope

/-- The scope with other names for its definitions. -/
def renamed (names : NodeId → String) (scope : Scope) : Scope :=
  scope.map fun entry => (names entry.2, entry.2)

variable {names : NodeId → String} {scope : Scope} {word name : String} {id : NodeId}

/-- A scope without a definition of a name has none of the changed name. -/
theorem lookup_renamed_eq_none (h : scope.lookup word = none)
    (hs : ∀ entry ∈ scope, names entry.2 = name → entry.1 = word) :
    (renamed names scope).lookup name = none := by
  rw [List.lookup_eq_none_iff] at h ⊢
  intro entry hm
  obtain ⟨found, hf, rfl⟩ := List.mem_map.mp hm
  rw [bne_iff_ne]
  rintro rfl
  exact bne_iff_ne.mp (h found hf) (hs found hf rfl).symm

/-- A definition that is found under its name is found under the changed one. -/
theorem lookup_renamed_eq_some (h : scope.lookup word = some id) (hn : names id = name)
    (hs : ∀ entry ∈ scope, names entry.2 = name → entry.1 = word) :
    (renamed names scope).lookup name = some id := by
  obtain ⟨front, behind, rfl, hfront⟩ := List.lookup_eq_some_iff.mp h
  have hnone : (renamed names front).lookup name = none :=
    lookup_renamed_eq_none (List.lookup_eq_none_iff.mpr hfront) fun entry hm =>
      hs entry (List.mem_append_left _ hm)
  simp only [renamed, List.map_append, List.map_cons, List.lookup_append] at hnone ⊢
  simp [hnone, hn]

end Scope

namespace Scopes

/-- The scopes with other names for their definitions. -/
def renamed (names : NodeId → String) (scopes : Scopes) : Scopes :=
  ⟨scopes.innermost.renamed names, scopes.enclosing.map (Scope.renamed names)⟩

/-- A definition is entered in one of the scopes under a name. -/
def Has (scopes : Scopes) (entry : String × NodeId) : Prop :=
  ∃ scope ∈ scopes.innermost :: scopes.enclosing, entry ∈ scope

variable {names : NodeId → String} {scopes : Scopes} {word name : String} {id : NodeId}

@[simp] theorem renamed_enter : scopes.enter.renamed names = (scopes.renamed names).enter := rfl

@[simp] theorem renamed_leave : scopes.leave.renamed names = (scopes.renamed names).leave := by
  unfold leave
  cases he : scopes.enclosing <;> simp [renamed, he]

/-- What a name leads to is entered under it. -/
theorem has_of_lookup? (h : scopes.lookup? word = some id) : scopes.Has (word, id) := by
  obtain ⟨scope, hm, hl⟩ := List.exists_of_findSome?_eq_some h
  obtain ⟨front, behind, rfl, _⟩ := List.lookup_eq_some_iff.mp hl
  exact ⟨_, hm, by simp⟩

/-- What a name leads to is what the changed name leads to. -/
theorem lookup?_renamed (h : scopes.lookup? word = some id) (hn : names id = name)
    (hs : ∀ entry, scopes.Has entry → names entry.2 = name → entry.1 = word) :
    (scopes.renamed names).lookup? name = some id := by
  have hall : ∀ list : List Scope, (list.findSome? fun scope => scope.lookup word) = some id →
      (∀ scope ∈ list, ∀ entry ∈ scope, names entry.2 = name → entry.1 = word) →
      ((list.map (Scope.renamed names)).findSome? fun scope => scope.lookup name) = some id := by
    intro list hf hl
    induction list with
    | nil => cases hf
    | cons scope others ih =>
      have hscope := hl scope List.mem_cons_self
      simp only [List.map_cons, List.findSome?_cons] at hf ⊢
      cases hc : scope.lookup word with
      | some found =>
        simp only [hc, Option.some.injEq] at hf
        simp [Scope.lookup_renamed_eq_some (hf ▸ hc) hn hscope]
      | none =>
        simp only [hc] at hf
        rw [Scope.lookup_renamed_eq_none hc hscope]
        exact ih hf fun other ho => hl other (List.mem_cons_of_mem _ ho)
  exact hall _ h fun scope hm entry he => hs entry ⟨scope, hm, he⟩

end Scopes

namespace Binding

variable {c : Pass.Comparison State} {arena arena' : Arena} {names : NodeId → String}
  {known : NodeId → Prop} {id : NodeId} {visit visit' : NodeId → Bind Unit}

/-- The names of a second arena tell apart what is told apart in the first one, and they are equal
where a node is bound to another one. -/
structure Renames (c : Pass.Comparison State) (names : NodeId → String) (arena : Arena)
    (known : NodeId → Prop) : Prop where
  /-- Definitions with one name behind the change have one name before it. -/
  separates : ∀ {id other definition definition'}, known id → known other →
    arena.definition? id = some definition → arena.definition? other = some definition' →
    names id = names other → definition.name = definition'.name
  /-- A reference that is bound has the name of what it is bound to. -/
  binds : ∀ {state id target}, c.within state → known id →
    state.bindings.get? id = some target → arena.word id = arena.word target →
    names id = names target

/-- The second state has the same bindings, and the same scopes up to names. -/
structure Renamed (names : NodeId → String) (arena : Arena) (known : NodeId → Prop)
    (state state' : State) : Prop where
  /-- The same references are bound. -/
  bindings : state'.bindings = state.bindings
  /-- The scopes have the changed names. -/
  scopes : state'.scopes = state.scopes.renamed names
  /-- The scopes hold definitions under their own names. -/
  named : ∀ entry, state.scopes.Has entry → known entry.2 ∧
    ∃ definition, arena.definition? entry.2 = some definition ∧ definition.name = entry.1

/-- No scope holds a definition yet. -/
theorem Renamed.initial : Renamed names arena known .initial .initial := by
  refine ⟨rfl, rfl, ?_⟩
  rintro entry ⟨scope, hscope, hm⟩
  obtain rfl := List.mem_singleton.mp hscope
  cases hm

/-- A pass over the second arena binds as the one over the first arena does. -/
abbrev Same (c : Pass.Comparison State) (names : NodeId → String) (arena : Arena)
    (known : NodeId → Prop) (step step' : Bind Unit) : Prop :=
  Pass.Follows c (Renamed names arena known) (Renamed names arena known) (fun value => value)
    step step'

section Steps

variable (h : arena.Alike c names arena' known)
  (hr : (∀ diagnostic, c.excuses diagnostic) → Renames c names arena known)
  (hw : ∀ {state after : State}, (∀ id target, state.bindings.get? id = some target →
    after.bindings.get? id = some target) → c.within after → c.within state)

include h hr hw

omit hr hw in
theorem fail_same {fault found : Fault} (hid : known id)
    (he : (∀ other, known other → arena'.kind? other = arena.kind? other) → found = fault) :
    Same c names arena known (fail arena id fault) (fail arena' id found) :=
  .throw (h.fault hid he)

omit h hr hw in
/-- A definition of equal arenas has its own name in both. -/
theorem definition_name {definition : Definition} (h : arena.Alike c names arena' known)
    (he : ∀ other, known other → arena'.kind? other = arena.kind? other ∧
      ∀ fault, c.blames ⟨fault, arena.position other⟩ ⟨fault, arena'.position other⟩)
    (hid : known id) (hd : arena.definition? id = some definition) :
    names id = definition.name := by
  obtain ⟨kind, hk, hk', -⟩ := h.kind hid
  cases hk.symm.trans (Arena.kind?_of_definition? hd)
  have hself := Arena.named_eq_self hid hk hk' fun other ho => (he other ho).1
  cases definition <;> exact congrArg Definition.name (NodeKind.definition.inj hself)

omit hr hw in
/-- A definition is one in both arenas. -/
theorem definition?_eq {definition : Definition} (hid : known id)
    (hd : arena.definition? id = some definition) :
    arena'.definition? id = some (definition.named (names id)) := by
  obtain ⟨kind, hk, hk', -⟩ := h.kind hid
  cases kind with
  | definition item =>
    simp only [Arena.definition?, hk, Option.some.injEq] at hd
    subst hd
    simp [Arena.definition?, hk', NodeKind.named]
  | definitions | expression | type => simp [Arena.definition?, hk] at hd

omit hw in
/-- Whichever way the arenas are compared, different names of definitions stay different. -/
theorem separates {other : NodeId} {definition definition' : Definition} (hid : known id)
    (ho : known other) (hd : arena.definition? id = some definition)
    (hd' : arena.definition? other = some definition') (hn : names id = names other) :
    definition.name = definition'.name := by
  rcases h.exact with hx | he
  · exact (hr hx).separates hid ho hd hd' hn
  · rw [← definition_name h he hid hd, ← definition_name h he ho hd', hn]

omit hr hw in
/-- If the arenas are equal, so are the states. -/
theorem Renamed.eq_of_exact {state state' : State} (hs : Renamed names arena known state state')
    (he : ∀ other, known other → arena'.kind? other = arena.kind? other ∧
      ∀ fault, c.blames ⟨fault, arena.position other⟩ ⟨fault, arena'.position other⟩) :
    state' = state := by
  have hscope : ∀ scope ∈ state.scopes.innermost :: state.scopes.enclosing,
      scope.renamed names = scope := by
    intro scope hscope
    refine (List.map_congr_left fun entry hm => ?_).trans (List.map_id _)
    obtain ⟨hid, definition, hd, hn⟩ := hs.named entry ⟨scope, hscope, hm⟩
    rw [definition_name h he hid hd, hn]
    rfl
  have henclosing : state.scopes.enclosing.map (Scope.renamed names) = state.scopes.enclosing :=
    (List.map_congr_left fun scope hm => hscope scope (List.mem_cons_of_mem _ hm)).trans
      (List.map_id _)
  have hscopes : state'.scopes = state.scopes := by
    rw [hs.scopes, Scopes.renamed, hscope _ List.mem_cons_self, henclosing]
  have hbindings := hs.bindings
  cases state
  cases state'
  cases hscopes
  cases hbindings
  rfl

/-- A definition is entered under its changed name if it is entered under its own. -/
theorem define_follows (hid : known id) :
    Same c names arena known (define arena id) (define arena' id) := by
  unfold define
  cases hd : arena.definition? id with
  | none =>
    obtain ⟨kind, hk, hk', -⟩ := h.kind hid
    cases kind with
    | definition item => simp [Arena.definition?, hk] at hd
    | definitions | expression | type =>
      simp only [Arena.definition?, hk', NodeKind.named]
      exact fail_same h hid fun _ => rfl
  | some definition =>
    rw [definition?_eq h hid hd]
    refine ⟨fun state hstate => ?_, fun state state' hs _ => ?_⟩
    · simp only [Pass.run_get_bind] at hstate
      cases hdefine : state.scopes.define definition.name id with
      | ok scopes =>
        rw [hdefine] at hstate
        have hafter : c.within { state with scopes } := hstate
        refine hw ?_ hafter
        exact fun _ _ hb => hb
      | error existing =>
        rw [hdefine] at hstate
        exact hstate
    · simp only [Pass.run_get_bind]
      cases hl : state.scopes.innermost.lookup definition.name with
      | some existing =>
        rcases h.exact with hx | he
        · simp only [Scopes.define, hl]
          exact .inl (hx _)
        · obtain rfl := hs.eq_of_exact h he
          have hname := definition_name h he hid hd
          simp only [Scopes.define, hl, Definition.name_named, hname]
          exact .inr ⟨_, _, rfl, (he id hid).2 _⟩
      | none =>
        have hnone : state'.scopes.innermost.lookup (names id) = none := by
          rw [hs.scopes]
          refine Scope.lookup_renamed_eq_none hl fun entry hm hn => ?_
          obtain ⟨ho, other, hother, he⟩ := hs.named entry ⟨_, List.mem_cons_self, hm⟩
          rw [← he]
          exact separates h hr ho hid hother hd hn
        simp only [Scopes.define, hl, Definition.name_named, hnone]
        refine ⟨_, rfl, hs.bindings, ?_, ?_⟩
        · simp [hs.scopes, Scopes.renamed, Scope.renamed]
        · rintro entry ⟨scope, hscope, hm⟩
          rcases List.mem_cons.mp hscope with rfl | hscope
          · rcases List.mem_cons.mp hm with rfl | hm
            · exact ⟨hid, definition, hd, rfl⟩
            · exact hs.named entry ⟨_, List.mem_cons_self, hm⟩
          · exact hs.named entry ⟨scope, List.mem_cons_of_mem _ hscope, hm⟩

/-- A reference finds the same definition under its changed name. -/
theorem refer_follows {word name expected : String} {accepted : List DefinitionKind}
    (hid : known id) (hword : arena.word id = word)
    (hname : names id = name)
    (hself : (∀ other, known other → arena'.kind? other = arena.kind? other) → name = word) :
    Same c names arena known (refer arena id word expected accepted)
      (refer arena' id name expected accepted) := by
  -- a run that stops is excused, or the arenas and the states are equal
  have hstop : ∀ {state state' : State}, Renamed names arena known state state' →
      (∀ diagnostic, c.excuses diagnostic) ∨
        state' = state ∧ name = word ∧ (∀ other, known other →
          arena'.definition? other = arena.definition? other) ∧
        ∀ fault, c.blames ⟨fault, arena.position id⟩ ⟨fault, arena'.position id⟩ := by
    intro state state' hs
    refine h.exact.imp_right fun he => ⟨hs.eq_of_exact h he, hself fun other ho => (he other ho).1,
      fun other ho => ?_, (he id hid).2⟩
    simp only [Arena.definition?, (he other ho).1]
  refine ⟨fun state hstate => ?_, fun state state' hs hstate => ?_⟩
  · simp only [refer, Pass.run_get_bind] at hstate
    cases hl : state.scopes.lookup? word with
    | none =>
      rw [hl] at hstate
      exact hstate
    | some target =>
      cases hd : arena.definition? target with
      | none =>
        simp only [hl, hd] at hstate
        exact hstate
      | some definition =>
        simp only [hl, hd] at hstate
        split at hstate
        · cases hstored : state.bindings.store? id target with
          | none =>
            rw [hstored] at hstate
            exact hstate
          | some bindings =>
            rw [hstored] at hstate
            have hafter : c.within { state with bindings } := hstate
            exact hw (fun _ _ hb => NodeTable.get?_of_store? hstored hb) hafter
        · exact hstate
  · simp only [refer, Pass.run_get_bind] at hstate ⊢
    cases hl : state.scopes.lookup? word with
    | none =>
      rcases hstop hs with hx | ⟨rfl, rfl, _, hb⟩
      · exact .inl (hx _)
      · simp only [hl]
        exact .inr ⟨_, _, rfl, hb _⟩
    | some target =>
      obtain ⟨ht, definition, hd, hn⟩ : known target ∧ ∃ definition,
          arena.definition? target = some definition ∧ definition.name = word :=
        hs.named _ (Scopes.has_of_lookup? hl)
      have hd' := definition?_eq h ht hd
      simp only [hl, hd] at hstate ⊢
      split
      · next haccepted =>
        simp only [haccepted, if_true] at hstate
        cases hstored : state.bindings.store? id target with
        | none =>
          rcases hstop hs with hx | ⟨rfl, rfl, hdefinition, hb⟩
          · exact .inl (hx _)
          · simp only [hl, hdefinition target ht, hd, haccepted, if_true, hstored]
            exact .inr ⟨_, _, rfl, hb _⟩
        | some bindings =>
          rw [hstored] at hstate
          have hafter : c.within { state with bindings } := hstate
          have htarget : names target = name := by
            rcases h.exact with hx | he
            · have hbound : bindings.get? id = some target := by
                rw [NodeTable.get?_store? hstored, if_pos rfl]
              have hsame : arena.word id = arena.word target := by
                rw [hword, ← hn, Arena.word_of_definition? hd]
              rw [← (hr hx).binds hafter hid hbound hsame, hname]
            · rw [definition_name h he ht hd, hn, hself fun other ho => (he other ho).1]
          have hlookup : state'.scopes.lookup? name = some target := by
            rw [hs.scopes]
            refine Scopes.lookup?_renamed hl htarget fun entry he hentry => ?_
            obtain ⟨ho, other, hother, hsame⟩ := hs.named entry he
            rw [← hsame, separates h hr ho ht hother hd (hentry.trans htarget.symm), hn]
          simp only [hlookup, hd', Definition.kind_named, haccepted, if_true, hs.bindings, hstored]
          exact ⟨_, rfl, rfl, hs.scopes, hs.named⟩
      · next hrefused =>
        rcases hstop hs with hx | ⟨rfl, rfl, hdefinition, hb⟩
        · exact .inl (hx _)
        · simp only [hl, hdefinition target ht, hd, hrefused, if_false]
          exact .inr ⟨_, _, rfl, hb _⟩

omit h hr in
theorem inScope_follows {step step' : Bind Unit} (hs : Same c names arena known step step') :
    Same c names arena known (inScope step) (inScope step') := by
  have hkeep : ∀ {state after : State}, after.bindings = state.bindings → c.within after →
      c.within state := fun he => hw fun _ _ hb => he ▸ hb
  refine Pass.Follows.bind (.modify (fun _ => hkeep rfl) fun state state' hb _ => ?_) fun _ =>
    .leaving (fun _ => hkeep rfl) (fun state state' ha => ?_) hs
  · refine ⟨hb.bindings, by rw [hb.scopes, Scopes.renamed_enter], ?_⟩
    rintro entry ⟨scope, hscope, hm⟩
    rcases List.mem_cons.mp hscope with rfl | hscope
    · cases hm
    · exact hb.named entry ⟨scope, hscope, hm⟩
  · refine ⟨ha.bindings, by rw [ha.scopes, Scopes.renamed_leave], ?_⟩
    rintro entry ⟨scope, hscope, hm⟩
    refine ha.named entry ⟨scope, ?_, hm⟩
    unfold Scopes.leave at hscope
    cases he : state.scopes.enclosing with
    | nil => simpa [he] using hscope
    | cons next others =>
      rw [he] at hscope
      exact List.mem_cons_of_mem _ hscope

variable (hv : ∀ id, known id → Same c names arena known (visit id) (visit' id))

include hv

omit hr hw hv in
/-- Parameters have the same written types in both arenas. -/
theorem parameterTypes_eq {parameters : List NodeId} (hm : ∀ id ∈ parameters, known id) :
    parameterTypes arena' parameters = parameterTypes arena parameters := by
  refine List.filterMap_congr fun id hid => ?_
  obtain ⟨kind, hk, hk', -⟩ := h.kind (hm id hid)
  simp only [Arena.definition?, hk, hk']
  cases kind with
  | definition item => cases item <;> rfl
  | definitions | expression | type => rfl

omit hr hw hv in
theorem parameterTypes_known {parameters : List NodeId} (hm : ∀ id ∈ parameters, known id) :
    ∀ written ∈ parameterTypes arena parameters, known written := by
  intro written hwritten
  obtain ⟨id, hid, hf⟩ := List.mem_filterMap.mp hwritten
  split at hf
  · next name found hd =>
    cases hf
    exact h.child (hm id hid) (Arena.kind?_of_definition? hd) written
      (by simp [NodeKind.children, Definition.children])
  · cases hf

theorem visitDefinition_follows {definition : Definition} {name : String}
    (hm : ∀ below ∈ definition.children, known below) :
    Same c names arena known (visitDefinition arena visit definition)
      (visitDefinition arena' visit' (definition.named name)) := by
  cases definition with
  | function word parameters result body =>
    simp only [Definition.children, List.mem_append, List.mem_cons] at hm
    have hparameters : ∀ parameter ∈ parameters, known parameter := fun _ hp => hm _ (.inl hp)
    dsimp only [Definition.named, visitDefinition]
    rw [parameterTypes_eq h hparameters]
    refine (hv result (hm result (by simp))).bind fun _ => ?_
    refine Pass.Follows.bind (.forM fun written hwritten =>
      hv written (parameterTypes_known h hparameters written hwritten)) fun _ => ?_
    refine inScope_follows hw (Pass.Follows.bind (.forM fun parameter hp =>
      define_follows h hr hw (hparameters parameter hp)) fun _ => ?_)
    exact hv body (hm body (by simp))
  | var _ written | type _ written => exact hv written (hm written (by simp [Definition.children]))
  | parameter => exact .pure (fun value => value) _

theorem visitExpression_follows {item : Expression} (hid : known id)
    (hk : arena.kind? id = some (.expression item))
    (hk' : arena'.kind? id = some (NodeKind.named (names id) (.expression item)))
    (hkeeps : (NodeKind.expression item).Keeps (names id)) :
    Same c names arena known (visitExpression arena visit id item)
      (visitExpression arena' visit' id (item.named (names id))) := by
  have hm := h.child hid hk
  have hname : (∀ other, known other → arena'.kind? other = arena.kind? other) →
      item.named (names id) = item := fun he =>
    NodeKind.expression.inj (Arena.named_eq_self hid hk hk' he)
  simp only [NodeKind.children] at hm
  cases item with
  | call callee arguments =>
    have hroutine : Builtin.isRoutine (names id) = Builtin.isRoutine callee := by
      rcases hkeeps with he | ⟨hcallee, hchanged⟩
      · rw [he]
      · rw [hcallee, hchanged]
    have harguments : Same c names arena known (arguments.forM visit) (arguments.forM visit') :=
      .forM fun argument ha => hv argument (hm argument ha)
    dsimp only [Expression.named, visitExpression]
    rw [hroutine]
    split
    · exact harguments
    · refine (refer_follows h hr hw hid ?_ rfl fun he => ?_).bind fun _ => harguments
      · simp [Arena.word, hk, NodeKind.word?]
      · exact (Expression.call.inj (hname he)).1
  | name word =>
    exact refer_follows h hr hw hid (by simp [Arena.word, hk, NodeKind.word?]) rfl fun he =>
      Expression.name.inj (hname he)
  | whereClause inner body =>
    simp only [Expression.children, List.mem_cons] at hm
    refine inScope_follows hw ?_
    exact (hv inner (hm inner (by simp))).bind fun _ => hv body (hm body (by simp))
  | binary | block | forLoop | whileLoop | conditional | literal | unary =>
    exact .forM fun below hb => hv below (hm below hb)

theorem visitWritten_follows {item : WrittenType} (hid : known id)
    (hk : arena.kind? id = some (.type item))
    (hk' : arena'.kind? id = some (NodeKind.named (names id) (.type item))) :
    Same c names arena known (visitWritten arena visit id item)
      (visitWritten arena' visit' id (item.named (names id))) := by
  have hm := h.child hid hk
  cases item with
  | atom => exact .pure (fun value => value) _
  | array length element =>
    exact hv element (hm element (by simp [NodeKind.children, WrittenType.children]))
  | name word =>
    refine refer_follows h hr hw hid (by simp [Arena.word, hk, NodeKind.word?]) rfl fun he => ?_
    exact WrittenType.name.inj (NodeKind.type.inj (Arena.named_eq_self hid hk hk' he))

theorem visitNode_follows (hid : known id) :
    Same c names arena known (visitNode arena visit id) (visitNode arena' visit' id) := by
  obtain ⟨kind, hk, hk', hkeeps⟩ := h.kind hid
  have hm := h.child hid hk
  simp only [visitNode, hk, hk']
  cases kind with
  | definitions members =>
    refine Pass.Follows.bind
      (.forM fun member hmember => define_follows h hr hw (hm member hmember))
      fun _ => ?_
    exact .forM fun member hmember => hv member (hm member hmember)
  | definition item => exact visitDefinition_follows h hr hw hv hm
  | expression item => exact visitExpression_follows h hr hw hv hid hk hk' hkeeps
  | type item => exact visitWritten_follows h hr hw hv hid hk hk'

end Steps

/-- Over alike arenas the same references are bound, to the same definitions. -/
theorem visitWithin_follows (h : arena.Alike c names arena' known)
    (hr : (∀ diagnostic, c.excuses diagnostic) → Renames c names arena known)
    (hw : ∀ {state after : State}, (∀ id target, state.bindings.get? id = some target →
      after.bindings.get? id = some target) → c.within after → c.within state)
    (fuel : Nat) (hid : known id) :
    Same c names arena known (visitWithin arena fuel id) (visitWithin arena' fuel id) := by
  induction fuel generalizing id with
  | zero => exact fail_same h hid fun _ => rfl
  | succ fuel ih => exact visitNode_follows h hr hw (fun _ hbelow => ih hbelow) hid

end Binding

end Pins
