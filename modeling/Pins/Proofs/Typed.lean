import Pins.Proofs.LaidOut
import Pins.Proofs.Lookup

/-!
# Typed programs

Typing a bound program finds nothing wrong with it but types: what does not fit, a cycle of type
definitions, or an array that is too large; and then the program is not well-typed
(`ofArena_rejects`). If it ends without a fault, the program is well-typed, every node but a
definition list has a type, and it is the one `HasType` gives (`ofArena_typed`).

Expressions are visited in the order of a sweep, each one once. Between the steps of the sweep no
lookup of a definition is under way.
-/

namespace Pins

namespace Typing

variable {arena : Arena} {bindings : NodeTable NodeId} {id : NodeId} {type : Ty} {place : Place}
  {first middle last : Nat} {state between after : State} {kind : NodeKind}

/-- Between the steps of the sweep, all types are right and no lookup is under way. -/
def Settled (arena : Arena) (bindings : NodeTable NodeId) (state : State) : Prop :=
  Good arena bindings state ∧ Idle arena state

/-- The expressions of an interval have no types. -/
def Untyped (arena : Arena) (first last : Nat) (state : State) : Prop :=
  ∀ id expression, arena.kind? id = some (.expression expression) → first ≤ id.index →
    id.index < last → state.types.get? id = none

/-- A node has a type, and if it is a function, its body has that of its result. -/
def Checked (arena : Arena) (bindings : NodeTable NodeId) (state : State) (id : NodeId)
    (kind : NodeKind) : Prop :=
  (state.types.get? id).isSome ∧ ∀ name parameters result body,
    kind = .definition (.function name parameters result body) →
    ∃ type, HasType arena bindings result type ∧ HasType arena bindings body type

/-- What visiting an interval adds to a state. -/
structure Covers (arena : Arena) (bindings : NodeTable NodeId) (first last : Nat)
    (before after : State) : Prop where
  /-- Types stay. -/
  types : ∀ {id type}, before.types.get? id = some type → after.types.get? id = some type
  /-- Expressions outside get no types. -/
  outside : ∀ {id expression}, arena.kind? id = some (.expression expression) →
    id.index < first ∨ last ≤ id.index → after.types.get? id = before.types.get? id
  /-- Whatever is inside has a type, and function bodies have the right one. -/
  inside : ∀ {id kind}, arena.kind? id = some kind → kind.isTyped = true → first ≤ id.index →
    id.index < last → Checked arena bindings after id kind

namespace Covers

theorem refl (first : Nat) (state : State) : Covers arena bindings first first state state :=
  ⟨id, fun _ _ => rfl, fun _ _ hf hl => absurd hl (Nat.not_lt.mpr hf)⟩

theorem isSome (h : Covers arena bindings first last state after)
    (hs : (state.types.get? id).isSome) : (after.types.get? id).isSome := by
  obtain ⟨type, ht⟩ := Option.isSome_iff_exists.mp hs
  simp [h.types ht]

theorem checked (h : Covers arena bindings first last state after)
    (hc : Checked arena bindings state id kind) : Checked arena bindings after id kind :=
  ⟨h.isSome hc.1, hc.2⟩

theorem trans (hl : first ≤ middle) (hr : middle ≤ last)
    (hf : Covers arena bindings first middle state between)
    (hs : Covers arena bindings middle last between after) :
    Covers arena bindings first last state after where
  types h := hs.types (hf.types h)
  outside hk ho := (hs.outside hk (by omega)).trans (hf.outside hk (by omega))
  inside {id kind} hk ht hfirst hlast := by
    by_cases hm : id.index < middle
    · exact hs.checked (hf.inside hk ht hfirst hm)
    · exact hs.inside hk ht (by omega) hlast

/-- Two neighbouring intervals are covered, the second one first. -/
theorem trans_back (hl : first ≤ middle) (hr : middle ≤ last)
    (hf : Covers arena bindings middle last state between)
    (hs : Covers arena bindings first middle between after) :
    Covers arena bindings first last state after where
  types h := hs.types (hf.types h)
  outside hk ho := (hs.outside hk (by omega)).trans (hf.outside hk (by omega))
  inside {id kind} hk ht hfirst hlast := by
    by_cases hm : id.index < middle
    · exact hs.inside hk ht hfirst hm
    · exact hs.checked (hf.inside hk ht (by omega) hlast)

/-- What has types already behind an interval belongs to it. -/
theorem extend (h : Covers arena bindings first middle state after) (hl : middle ≤ last)
    (hi : ∀ id kind, arena.kind? id = some kind → kind.isTyped = true → middle ≤ id.index →
      id.index < last → Checked arena bindings after id kind) :
    Covers arena bindings first last state after where
  types := h.types
  outside hk ho := h.outside hk (by omega)
  inside {id kind} hk ht hfirst hlast := by
    by_cases hm : id.index < middle
    · exact h.inside hk ht hfirst hm
    · exact hi _ _ hk ht (by omega) hlast

end Covers

theorem Untyped.mono {start stop : Nat} (h : Untyped arena first last state) (hs : first ≤ start)
    (ht : stop ≤ last) : Untyped arena start stop state :=
  fun id expression hk hf hl => h id expression hk (by omega) (by omega)

theorem Untyped.behind {stop : Nat} (h : Untyped arena last stop state)
    (hc : Covers arena bindings first last state after) : Untyped arena last stop after :=
  fun id expression hk hf hl => (hc.outside hk (Or.inr hf)).trans (h id expression hk hf hl)

theorem Untyped.front {start : Nat} (h : Untyped arena start first state)
    (hc : Covers arena bindings first last state after) : Untyped arena start first after :=
  fun id expression hk hf hl => (hc.outside hk (Or.inl hl)).trans (h id expression hk hf hl)

/-- Visits of neighbouring intervals that give a type to whatever they pass. -/
def sweep (arena : Arena) (bindings : NodeTable NodeId) : Sweep State where
  ready first last state := Settled arena bindings state ∧ Untyped arena first last state
  done first last before after := (Settled arena bindings before → Settled arena bindings after) ∧
    Covers arena bindings first last before after
  refl first state := ⟨fun h => h, .refl first state⟩
  trans hl hr hf hs := ⟨fun h => hs.1 (hf.1 h), hf.2.trans hl hr hs.2⟩
  ready_front _ hr h := ⟨h.1, h.2.mono (Nat.le_refl _) hr⟩
  ready_behind hl _ h hd := ⟨hd.1 h.1, (h.2.mono hl (Nat.le_refl _)).behind hd.2⟩

/-- The type of an expression is found by a visit of its subtree. -/
def Finds (arena : Arena) (bindings : NodeTable NodeId) (typeOf : NodeId → Check Ty)
    (place : Place) (id : NodeId) : Prop :=
  ∀ start, arena.Subtree place start id → ∀ state,
    (sweep arena bindings).ready start (id.index + 1) state →
    (typeOf id).Runs (Rejects arena bindings) state fun type after =>
      (sweep arena bindings).done start (id.index + 1) state after ∧ HasType arena bindings id type

/-- The type of a definition is looked up between two steps, which passes no interval. -/
def LooksUp (arena : Arena) (bindings : NodeTable NodeId) (ofDefinition : NodeId → Check Ty) :
    Prop :=
  ∀ ⦃id definition state⦄, arena.kind? id = some (.definition definition) →
    Settled arena bindings state → ∀ first,
    (ofDefinition id).Runs (Rejects arena bindings) state fun type after =>
      (sweep arena bindings).done first first state after ∧ HasType arena bindings id type ∧
        after.types.get? id = some type

/-- A bound with room for as many calls as there are nodes is enough to look up definitions. -/
theorem definitionTypeWithin_looksUp (ht : arena.IsTree) (hb : Binding.Bound arena bindings)
    {fuel : Nat} (hfuel : arena.depthBound ≤ fuel + arena.size) :
    LooksUp arena bindings (definitionTypeWithin arena bindings fuel) := by
  intro id definition state hk hs first
  refine (definitionType_runs ht hb hfuel hk hs.1 hs.2).mono fun type after hl => ?_
  obtain ⟨hgood, hgrows, hkept⟩ := hl
  refine ⟨⟨fun _ => ⟨hgood, fun other definition hk' hbusy => ?_⟩, ?_⟩, hgood.sound hkept, hkept⟩
  · exact hs.2 other definition hk' ((hgrows.busy hk').mp hbusy)
  · exact ⟨hgrows.types, fun hk' _ => hgrows.expression hk',
      fun _ _ hf hl => absurd hl (Nat.not_lt.mpr hf)⟩

/-- Below written types and parameters with types, everything has a type, and nothing is a
function. -/
theorem Good.checked_forest (hg : Good arena bindings state) {places : List (Place × NodeId)}
    (h : arena.Forest first places last)
    (hp : ∀ member ∈ places, member.1 = Place.type ∨ member.1 = Place.parameter)
    (hm : ∀ member ∈ places, (state.types.get? member.2).isSome) :
    ∀ {node : NodeId} {kind : NodeKind}, arena.kind? node = some kind → first ≤ node.index →
      node.index < last → Checked arena bindings state node kind := by
  induction h with
  | nil => intro node _ _ hf hl; omega
  | @cons first last place id kind others hkind hadmits hregular below behind hb ho =>
    intro node found hfound hf hl
    have hid := hm _ List.mem_cons_self
    have hplace := hp _ List.mem_cons_self
    rcases Nat.lt_trichotomy node.index id.index with hlt | heq | hgt
    · refine hb (fun member hmem => ?_) (fun member hmem => ?_) hfound hf hlt
      all_goals
        rw [Place.places_eq_sources hplace hadmits] at hmem
        obtain ⟨source, hsource, rfl⟩ := List.mem_map.mp hmem
      · exact .inl rfl
      · exact hg.closed hkind hid source hsource
    · obtain rfl := NodeId.eq_of_index heq
      cases hkind.symm.trans hfound
      refine ⟨hid, fun name parameters result body he => ?_⟩
      subst he
      rcases hplace with rfl | rfl <;> cases hadmits
    · exact ho (fun member hmem => hp member (List.mem_cons_of_mem _ hmem))
        (fun member hmem => hm member (List.mem_cons_of_mem _ hmem)) hfound (by omega) hl

/-- An operation that is refused has no type, and one that is not has that of its combination. -/
theorem binaryType_runs {left right : NodeId} {operator : BinaryOperator}
    {leftType rightType : Ty}
    (hnone : combined? operator leftType rightType = none → ¬WellTyped arena bindings) :
    (binaryType arena id left right operator leftType rightType).Runs (Rejects arena bindings) state
      fun type after => after = state ∧ combined? operator leftType rightType = some type := by
  cases operator with
  | or | and | add | sub | mul | div | mod =>
    simp only [binaryType]
    split
    · next h => obtain ⟨rfl, rfl⟩ := h; exact ⟨rfl, rfl⟩
    · next h =>
      refine runs_mismatch trivial (hnone ?_)
      unfold combined?
      split <;> simp_all
  | eq | neq | lt | gt | leq | geq =>
    simp only [binaryType]
    split
    · next h => exact ⟨rfl, if_pos h⟩
    · next h => exact runs_mismatch trivial (hnone (if_neg h))
  | index =>
    cases leftType with
    | array length element =>
      simp only [binaryType, Ty.element?]
      split
      · next h => subst h; exact ⟨rfl, rfl⟩
      · next h =>
        refine runs_mismatch trivial (hnone ?_)
        unfold combined?
        split <;> simp_all
    | integer | logical | string | void | function =>
      exact runs_mismatch trivial (hnone rfl)
  | assign =>
    simp only [binaryType]
    split
    · next h => exact ⟨rfl, if_pos h⟩
    · next h => exact runs_mismatch trivial (hnone (if_neg h))

/-- In a well-typed program every node but a definition list has a type that its rule derives. -/
theorem WellTyped.derives (h : WellTyped arena bindings) (hk : arena.kind? id = some kind)
    (ht : kind.isTyped = true) :
    ∃ type, Derives bindings (HasType arena bindings) id kind type := by
  obtain ⟨type, htype⟩ := h.total hk ht
  exact ⟨type, htype.derives hk⟩

section Node

variable {ofDefinition ofWritten typeOf : NodeId → Check Ty} {check : NodeId → Check Unit}
  (hbound : Binding.Bound arena bindings) (hlooks : LooksUp arena bindings ofDefinition)
  (hfinds : ∀ place below, below.index < id.index → place = .expression ∨ place = .counter →
    Finds arena bindings typeOf place below)
  (hvisits : ∀ place below, below.index < id.index → place = .definitions ∨ place = .definition →
    (sweep arena bindings).Visits arena (Rejects arena bindings) check place below)

include hfinds

/-- A condition is checked by finding its type. -/
theorem condition_runs {test : NodeId} (hs : arena.Subtree .expression first test)
    (hlt : test.index < id.index) (hr : (sweep arena bindings).ready first (test.index + 1) state)
    (hneeds : WellTyped arena bindings → HasType arena bindings test .logical) :
    (condition arena typeOf test).Runs (Rejects arena bindings) state fun _ after =>
      (sweep arena bindings).done first (test.index + 1) state after ∧
        HasType arena bindings test .logical := by
  simp only [condition, Pass.runs_bind]
  refine (hfinds .expression test hlt (.inl rfl) first hs state hr).mono fun type after ha => ?_
  split
  · next h => subst h; exact ha
  · next h => exact runs_mismatch trivial fun hw => h (ha.2.unique (hneeds hw))

/-- A part of a counting loop is checked by finding its type. -/
theorem loopPart_runs {part : String} {operand : NodeId}
    (hp : place = .expression ∨ place = .counter) (hs : arena.Subtree place first operand)
    (hlt : operand.index < id.index)
    (hr : (sweep arena bindings).ready first (operand.index + 1) state)
    (hneeds : WellTyped arena bindings → HasType arena bindings operand .integer) :
    (loopPart arena typeOf part operand).Runs (Rejects arena bindings) state fun _ after =>
      (sweep arena bindings).done first (operand.index + 1) state after ∧
        HasType arena bindings operand .integer := by
  simp only [loopPart, Pass.runs_bind]
  refine (hfinds place operand hlt hp first hs state hr).mono fun type after ha => ?_
  split
  · next h => subst h; exact ha
  · next h => exact runs_mismatch trivial fun hw => h (ha.2.unique (hneeds hw))

/-- Arguments are checked one by one against as many parameters. -/
theorem checkArguments_runs {callee : String} {arguments : List NodeId} {parameters : List Ty}
    {index : Nat} (hf : arena.Forest first (arguments.map (.expression, ·)) last)
    (hlast : last ≤ id.index) (hlength : parameters.length = arguments.length)
    (hr : (sweep arena bindings).ready first last state)
    (hneeds : WellTyped arena bindings →
      ∀ entry ∈ arguments.zip parameters, HasType arena bindings entry.1 entry.2) :
    (checkArguments arena typeOf callee index arguments parameters).Runs (Rejects arena bindings)
      state fun _ after => (sweep arena bindings).done first last state after ∧
        ∀ entry ∈ arguments.zip parameters, HasType arena bindings entry.1 entry.2 := by
  induction arguments generalizing parameters index first state with
  | nil =>
    obtain rfl := Arena.forest_nil_iff.mp hf
    simp [checkArguments, (sweep arena bindings).refl first state]
  | cons argument others ih =>
    cases parameters with
    | nil => simp at hlength
    | cons parameter rest =>
      obtain ⟨hs, ho⟩ := Arena.forest_cons_iff.mp hf
      have hle := hs.le
      have hol := ho.le
      simp only [checkArguments, Pass.runs_bind]
      refine (hfinds .expression argument (by omega) (.inl rfl) first hs state
        ((sweep arena bindings).ready_front (by omega) hol hr)).mono fun type between hb => ?_
      split
      · next he =>
        subst he
        refine (ih ho (by simpa using hlength)
          ((sweep arena bindings).ready_behind (by omega) hol hr hb.1)
          fun hw entry hm => hneeds hw entry (by simp [hm])).mono fun _ after ha => ?_
        refine ⟨(sweep arena bindings).trans (by omega) hol hb.1 ha.1, fun entry hm => ?_⟩
        rw [List.zip_cons_cons] at hm
        rcases List.mem_cons.mp hm with rfl | hm
        · exact hb.2
        · exact ha.2 entry hm
      · next he =>
        refine runs_mismatch trivial fun hw => he (hb.2.unique ?_)
        exact hneeds hw (argument, parameter) (by simp)

/-- Of the expressions of a block, all are visited and the last one gives the type. -/
theorem lastType_runs {expressions : List NodeId} (hn : expressions ≠ [])
    (hf : arena.Forest first (expressions.map (.expression, ·)) last) (hlast : last ≤ id.index)
    (hr : (sweep arena bindings).ready first last state) :
    (lastType typeOf expressions).Runs (Rejects arena bindings) state fun found after =>
      (sweep arena bindings).done first last state after ∧
        ∃ type final, found = some type ∧ expressions.getLast? = some final ∧
          HasType arena bindings final type := by
  induction expressions generalizing first state with
  | nil => exact absurd rfl hn
  | cons expression others ih =>
    obtain ⟨hs, ho⟩ := Arena.forest_cons_iff.mp hf
    have hle := hs.le
    have hol := ho.le
    have hfirst := hfinds .expression expression (by omega) (.inl rfl) first hs state
      ((sweep arena bindings).ready_front (by omega) hol hr)
    cases others with
    | nil =>
      obtain rfl := Arena.forest_nil_iff.mp ho
      simp only [lastType, Pass.runs_bind, Pass.runs_pure]
      exact hfirst.mono fun type after ha => ⟨ha.1, type, expression, rfl, rfl, ha.2⟩
    | cons next rest =>
      simp only [lastType, Pass.runs_bind]
      refine hfirst.mono fun _ between hb => ?_
      refine (ih (by simp) ho
        ((sweep arena bindings).ready_behind (by omega) hol hr hb.1)).mono fun found after ha => ?_
      obtain ⟨hdone, type, final, hfound, hfinal, htype⟩ := ha
      exact ⟨(sweep arena bindings).trans (by omega) hol hb.1 hdone, type, final, hfound,
        by simpa using hfinal, htype⟩

/-- An operation is typed behind its operands. -/
theorem binary_runs {operator : BinaryOperator} {left right : NodeId}
    (hk : arena.kind? id = some (.expression (.binary operator left right)))
    (hf : arena.Forest first (NodeKind.expression (.binary operator left right)).places id.index)
    (hr : (sweep arena bindings).ready first id.index state) :
    (expressionStep arena bindings ofDefinition typeOf check id (.binary operator left right)).Runs
      (Rejects arena bindings) state fun type after =>
        (sweep arena bindings).done first id.index state after ∧
        HasType arena bindings id type := by
  simp only [NodeKind.places, Expression.children, List.map_cons, List.map_nil,
    Arena.forest_cons_iff, Arena.forest_nil_iff] at hf
  obtain ⟨hleft, hright, hend⟩ := hf
  have hll := hleft.le
  have hrl := hright.le
  simp only [expressionStep, Pass.runs_bind]
  have hfront : (sweep arena bindings).ready first (left.index + 1) state :=
    (sweep arena bindings).ready_front (by omega) (by omega) hr
  refine (hfinds .expression left (by omega) (.inl rfl) _ hleft state hfront).mono
    fun leftType between hb => ?_
  have hbetween := (sweep arena bindings).ready_behind (by omega) (by omega) hr hb.1
  refine (hfinds .expression right (by omega) (.inl rfl) _ hright between
    ((sweep arena bindings).ready_front (by omega) (by omega) hbetween)).mono
      fun rightType reached ha => ?_
  have hnone : combined? operator leftType rightType = none → ¬WellTyped arena bindings := by
    intro hn hw
    obtain ⟨type, leftFound, rightFound, hl, hr', hc⟩ := hw.derives hk rfl
    rw [← hb.2.unique hl, ← ha.2.unique hr', hn] at hc
    cases hc
  refine (binaryType_runs hnone).mono fun type after hc => ?_
  obtain ⟨rfl, hc⟩ := hc
  rw [← hend]
  exact ⟨(sweep arena bindings).trans (by omega) (by omega) hb.1 ha.1,
    .binary hk hb.2 ha.2 hc⟩

/-- A choice is typed when its condition is logical and its branches have types. -/
theorem conditional_runs {test thenBranch : NodeId} {elseBranch : Option NodeId}
    (hk : arena.kind? id = some (.expression (.conditional test thenBranch elseBranch)))
    (hf : arena.Forest first
      (NodeKind.expression (.conditional test thenBranch elseBranch)).places id.index)
    (hr : (sweep arena bindings).ready first id.index state) :
    (expressionStep arena bindings ofDefinition typeOf check id
      (.conditional test thenBranch elseBranch)).Runs (Rejects arena bindings) state
      fun type after => (sweep arena bindings).done first id.index state after ∧
        HasType arena bindings id type := by
  simp only [NodeKind.places, Expression.children, List.map_cons, Arena.forest_cons_iff] at hf
  obtain ⟨htest, hthen, helse⟩ := hf
  have htl := htest.le
  have hbl := hthen.le
  have hel := helse.le
  simp only [expressionStep, Pass.runs_bind, Pass.runs_pure]
  refine (condition_runs hfinds htest (by omega)
    ((sweep arena bindings).ready_front (by omega) (by omega) hr) fun hw =>
      (hw.derives hk rfl).elim fun _ hd => hd.1).mono fun _ tested hc => ?_
  have htested := (sweep arena bindings).ready_behind (by omega) (by omega) hr hc.1
  refine (hfinds .expression thenBranch (by omega) (.inl rfl) _ hthen tested
    ((sweep arena bindings).ready_front (by omega) (by omega) htested)).mono fun _ chosen hb => ?_
  have hchosen := (sweep arena bindings).trans (by omega) (by omega) hc.1 hb.1
  have hready := (sweep arena bindings).ready_behind (by omega) (by omega) hr hchosen
  cases elseBranch with
  | none =>
    simp only [Option.toList_none, List.map_nil, Arena.forest_nil_iff] at helse
    rw [← helse]
    simpa using ⟨hchosen, HasType.conditional hk hc.2⟩
  | some branch =>
    simp only [Option.toList_some, List.map_cons, List.map_nil, Arena.forest_cons_iff,
      Arena.forest_nil_iff] at helse
    obtain ⟨hbranch, hend⟩ := helse
    have hbl := hbranch.le
    simp only [Option.toList_some, List.forM_eq_forM, List.forM_cons, List.forM_nil,
      Pass.runs_bind, Pass.runs_pure]
    refine (hfinds .expression branch (by omega) (.inl rfl) _ hbranch chosen
      ((sweep arena bindings).ready_front (by omega) (by omega) hready)).mono fun _ after ha => ?_
    rw [← hend]
    exact ⟨(sweep arena bindings).trans (by omega) (by omega) hchosen ha.1,
      .conditional hk hc.2⟩

/-- A loop under a condition is typed when the condition is logical and the body has a type. -/
theorem whileLoop_runs {test body : NodeId}
    (hk : arena.kind? id = some (.expression (.whileLoop test body)))
    (hf : arena.Forest first (NodeKind.expression (.whileLoop test body)).places id.index)
    (hr : (sweep arena bindings).ready first id.index state) :
    (expressionStep arena bindings ofDefinition typeOf check id (.whileLoop test body)).Runs
      (Rejects arena bindings) state fun type after =>
        (sweep arena bindings).done first id.index state after ∧
        HasType arena bindings id type := by
  simp only [NodeKind.places, Expression.children, List.map_cons, List.map_nil,
    Arena.forest_cons_iff, Arena.forest_nil_iff] at hf
  obtain ⟨htest, hbody, hend⟩ := hf
  have htl := htest.le
  have hbl := hbody.le
  simp only [expressionStep, Pass.runs_bind, Pass.runs_pure]
  refine (condition_runs hfinds htest (by omega)
    ((sweep arena bindings).ready_front (by omega) (by omega) hr) fun hw =>
      (hw.derives hk rfl).elim fun _ hd => hd.1).mono fun _ tested hc => ?_
  have htested := (sweep arena bindings).ready_behind (by omega) (by omega) hr hc.1
  refine (hfinds .expression body (by omega) (.inl rfl) _ hbody tested
    ((sweep arena bindings).ready_front (by omega) (by omega) htested)).mono fun _ after ha => ?_
  rw [← hend]
  exact ⟨(sweep arena bindings).trans (by omega) (by omega) hc.1 ha.1, .whileLoop hk hc.2⟩

/-- A counting loop is typed when its parts are integers and the body has a type. -/
theorem forLoop_runs {counter low high step body : NodeId}
    (hk : arena.kind? id = some (.expression (.forLoop counter low high step body)))
    (hf : arena.Forest first
      (NodeKind.expression (.forLoop counter low high step body)).places id.index)
    (hr : (sweep arena bindings).ready first id.index state) :
    (expressionStep arena bindings ofDefinition typeOf check id
      (.forLoop counter low high step body)).Runs (Rejects arena bindings) state
      fun type after => (sweep arena bindings).done first id.index state after ∧
        HasType arena bindings id type := by
  simp only [NodeKind.places, Arena.forest_cons_iff, Arena.forest_nil_iff] at hf
  obtain ⟨hcounter, hlow, hhigh, hstep, hbody, hend⟩ := hf
  have hcl := hcounter.le
  have hll := hlow.le
  have hhl := hhigh.le
  have hsl := hstep.le
  have hbl := hbody.le
  let sw := sweep arena bindings
  have hneeds : WellTyped arena bindings → HasType arena bindings counter .integer ∧
      HasType arena bindings low .integer ∧ HasType arena bindings high .integer ∧
      HasType arena bindings step .integer := by
    intro hw
    obtain ⟨_, hcounter, hlow, hhigh, hstep, _⟩ := hw.derives hk rfl
    exact ⟨hcounter, hlow, hhigh, hstep⟩
  simp only [expressionStep, Pass.runs_bind, Pass.runs_pure]
  refine (loopPart_runs hfinds (.inr rfl) hcounter (by omega)
    (sw.ready_front (by omega) (by omega) hr) fun hw => (hneeds hw).1).mono fun _ counted hc => ?_
  have hrest := sw.ready_behind (by omega) (by omega) hr hc.1
  refine (loopPart_runs hfinds (.inl rfl) hlow (by omega)
    (sw.ready_front (by omega) (by omega) hrest)
    fun hw => (hneeds hw).2.1).mono fun _ lowered hl => ?_
  have hrest := sw.ready_behind (by omega) (by omega) hrest hl.1
  refine (loopPart_runs hfinds (.inl rfl) hhigh (by omega)
    (sw.ready_front (by omega) (by omega) hrest)
    fun hw => (hneeds hw).2.2.1).mono fun _ bounded hh => ?_
  have hrest := sw.ready_behind (by omega) (by omega) hrest hh.1
  refine (loopPart_runs hfinds (.inl rfl) hstep (by omega)
    (sw.ready_front (by omega) (by omega) hrest)
    fun hw => (hneeds hw).2.2.2).mono fun _ stepped hs => ?_
  have hrest := sw.ready_behind (by omega) (by omega) hrest hs.1
  refine (hfinds .expression body (by omega) (.inl rfl) _ hbody stepped
    (sw.ready_front (by omega) (by omega) hrest)).mono fun _ after ha => ?_
  rw [← hend]
  have htail := sw.trans (by omega) (by omega) hs.1 ha.1
  have htail := sw.trans (by omega) (by omega) hh.1 htail
  have htail := sw.trans (by omega) (by omega) hl.1 htail
  exact ⟨sw.trans (by omega) (by omega) hc.1 htail, .forLoop hk hc.2 hl.2 hh.2 hs.2⟩

include hbound hlooks

/-- A call goes by a function type, and its arguments are checked against that. -/
theorem call_runs {callee : String} {arguments : List NodeId}
    (hk : arena.kind? id = some (.expression (.call callee arguments)))
    (hf : arena.Forest first (NodeKind.expression (.call callee arguments)).places id.index)
    (hr : (sweep arena bindings).ready first id.index state) :
    (callType arena bindings ofDefinition typeOf id callee arguments).Runs (Rejects arena bindings)
      state fun type after => (sweep arena bindings).done first id.index state after ∧
        HasType arena bindings id type := by
  have hle := hf.le
  -- the signature is a function type by which the call has the type of the result, and no other
  -- one has its arguments as parameters
  have hsignature : (signature arena bindings ofDefinition id callee).Runs (Rejects arena bindings)
      state fun found between =>
      (sweep arena bindings).done first first state between ∧ ∃ types type,
        found = .function types type ∧ (arguments.length = types.length →
          (∀ entry ∈ arguments.zip types, HasType arena bindings entry.1 entry.2) →
          HasType arena bindings id type) ∧
        (WellTyped arena bindings → arguments.length = types.length ∧
          ∀ entry ∈ arguments.zip types, HasType arena bindings entry.1 entry.2) := by
    cases hs : Builtin.signature? callee with
    | some routine =>
      obtain ⟨types, type, rfl, _⟩ := Builtin.signature?_eq_some hs
      simp only [signature, hs, Pass.runs_pure]
      refine ⟨(sweep arena bindings).refl first state, types, type, rfl, .routine hk hs,
        fun hw => ?_⟩
      obtain ⟨_, found, hs' | ⟨hs', _⟩, harguments⟩ := hw.derives hk rfl
      · cases hs.symm.trans hs'
        exact harguments
      · cases hs.symm.trans hs'
    | none =>
      have hroutine : Builtin.isRoutine callee = false := by
        rw [← Builtin.isSome_signature?, hs]
        rfl
      have hright := hbound id (Arena.index_lt_size hk)
      simp only [Binding.BoundRight, hk, Option.bind_some, NodeKind.accepted?, hroutine,
        Bool.false_eq_true, if_false] at hright
      obtain ⟨target, definition, hb, hd, hkind⟩ := hright
      simp only [signature, hs, hb]
      cases definition with
      | var | type | parameter => simp [Definition.kind] at hkind
      | function name parameters result body =>
        have htarget := Arena.kind?_of_definition? hd
        refine (hlooks htarget hr.1 first).mono fun found between hl => ?_
        obtain ⟨hdone, htype, _⟩ := hl
        obtain ⟨types, type, _, _, _, rfl⟩ := htype.derives htarget
        refine ⟨hdone, types, type, rfl, .call hk hs hb htype, fun hw => ?_⟩
        obtain ⟨_, found, hs' | ⟨_, other, hb', hother⟩, harguments⟩ := hw.derives hk rfl
        · cases hs.symm.trans hs'
        · cases hb.symm.trans hb'
          cases htype.unique hother
          exact harguments
  simp only [callType, Pass.runs_bind]
  refine hsignature.mono fun found between hs => ?_
  obtain ⟨hdone, types, type, rfl, htype, hneeds⟩ := hs
  dsimp only
  split
  · next hlength =>
    simp only [Pass.runs_bind, Pass.runs_pure]
    have hready := (sweep arena bindings).ready_behind (Nat.le_refl _) hle hr hdone
    refine (checkArguments_runs hfinds hf (Nat.le_refl _) hlength hready
      fun hw => (hneeds hw).2).mono fun _ after ha => ?_
    exact ⟨(sweep arena bindings).trans (Nat.le_refl _) hle hdone ha.1, htype hlength.symm ha.2⟩
  · next hlength => exact runs_mismatch trivial fun hw => hlength (hneeds hw).1.symm

omit hfinds in
/-- A name has the type of its definition. -/
theorem name_runs {word : String} (hk : arena.kind? id = some (.expression (.name word)))
    (hr : (sweep arena bindings).ready first id.index state) (hle : first = id.index) :
    (expressionStep arena bindings ofDefinition typeOf check id (.name word)).Runs
      (Rejects arena bindings) state fun type after =>
        (sweep arena bindings).done first id.index state after ∧
        HasType arena bindings id type := by
  subst hle
  have hright := hbound id (Arena.index_lt_size hk)
  simp only [Binding.BoundRight, hk, Option.bind_some, NodeKind.accepted?] at hright
  obtain ⟨target, definition, hb, hd, _⟩ := hright
  simp only [expressionStep, hb]
  have hrun := hlooks (Arena.kind?_of_definition? hd) hr.1 id.index
  refine hrun.mono fun type after hl => ?_
  exact ⟨hl.1, .name hk hb hl.2.1⟩

include hvisits

omit hbound hlooks in
/-- An expression under definitions has its own type; the definitions are checked in front. -/
theorem where_runs {inner body : NodeId}
    (hk : arena.kind? id = some (.expression (.whereClause inner body)))
    (hf : arena.Forest first (NodeKind.expression (.whereClause inner body)).places id.index)
    (hr : (sweep arena bindings).ready first id.index state) :
    (expressionStep arena bindings ofDefinition typeOf check id (.whereClause inner body)).Runs
      (Rejects arena bindings) state fun type after =>
        (sweep arena bindings).done first id.index state after ∧
        HasType arena bindings id type := by
  simp only [NodeKind.places, Arena.forest_cons_iff, Arena.forest_nil_iff] at hf
  obtain ⟨hbody, hinner, hend⟩ := hf
  have hbl := hbody.le
  have hil := hinner.le
  simp only [expressionStep, Pass.runs_bind]
  have hready : (sweep arena bindings).ready (body.index + 1) (inner.index + 1) state :=
    ⟨hr.1, hr.2.mono (by omega) (by omega)⟩
  refine (hvisits .definitions inner (by omega) (.inl rfl) _ hinner state hready).mono
    fun _ listed hl => ?_
  have hbodyReady : (sweep arena bindings).ready first (body.index + 1) listed :=
    ⟨hl.1 hr.1, (hr.2.mono (Nat.le_refl _) (by omega)).front hl.2⟩
  refine (hfinds .expression body (by omega) (.inl rfl) _ hbody listed hbodyReady).mono
    fun type after ha => ?_
  rw [← hend]
  exact ⟨⟨fun h => ha.1.1 (hl.1 h), hl.2.trans_back (by omega) (by omega) ha.1.2⟩,
    .whereClause hk ha.2⟩

/-- The type of an expression is found behind those of the expressions in it. -/
theorem expressionStep_runs {expression : Expression}
    (hk : arena.kind? id = some (.expression expression))
    (hregular : (NodeKind.expression expression).isRegular = true)
    (hf : arena.Forest first (NodeKind.expression expression).places id.index)
    (hr : (sweep arena bindings).ready first id.index state) :
    (expressionStep arena bindings ofDefinition typeOf check id expression).Runs
      (Rejects arena bindings) state fun type after =>
        (sweep arena bindings).done first id.index state after ∧
        HasType arena bindings id type := by
  cases expression with
  | call callee arguments => exact call_runs hbound hlooks hfinds hk hf hr
  | binary operator left right => exact binary_runs hfinds hk hf hr
  | conditional test thenBranch elseBranch => exact conditional_runs hfinds hk hf hr
  | whileLoop test body => exact whileLoop_runs hfinds hk hf hr
  | forLoop counter low high step body => exact forLoop_runs hfinds hk hf hr
  | whereClause inner body => exact where_runs hfinds hvisits hk hf hr
  | name word => exact name_runs hbound hlooks hk hr (Arena.forest_nil_iff.mp hf)
  | literal value word =>
    obtain hend : first = id.index := Arena.forest_nil_iff.mp hf
    simp only [expressionStep, Pass.runs_pure]
    rw [← hend]
    exact ⟨(sweep arena bindings).refl first state, .literal hk⟩
  | unary operator operand =>
    simp only [NodeKind.places, Expression.children, List.map_cons, List.map_nil,
      Arena.forest_cons_iff, Arena.forest_nil_iff] at hf
    obtain ⟨hoperand, hend⟩ := hf
    simp only [expressionStep, Pass.runs_bind]
    refine (hfinds .expression operand (by omega) (.inl rfl) _ hoperand state
      (hend ▸ hr)).mono fun type after ha => ?_
    split
    · next he =>
      rw [← hend]
      exact ⟨ha.1, .unary hk ha.2 (applied?_eq_some_iff.mpr ⟨he, he⟩)⟩
    · next he =>
      refine runs_mismatch trivial fun hw => he ?_
      obtain ⟨_, operandType, hoperand, happlied⟩ := hw.derives hk rfl
      rw [ha.2.unique hoperand]
      exact (applied?_eq_some_iff.mp happlied).1
  | block expressions =>
    have hn : expressions ≠ [] := by
      rintro rfl
      simp [NodeKind.isRegular] at hregular
    simp only [expressionStep, Pass.runs_bind]
    refine (lastType_runs hfinds hn hf (Nat.le_refl _) hr).mono fun found after ha => ?_
    obtain ⟨hdone, type, final, rfl, hfinal, htype⟩ := ha
    exact ⟨hdone, .block hk hfinal htype⟩

omit hbound hvisits in
/-- The body of a function must have the type of its result. -/
theorem function_runs {name : String} {parameters : List NodeId} {result body : NodeId}
    (hk : arena.kind? id = some (.definition (.function name parameters result body)))
    (hf : arena.Forest first
      (NodeKind.definition (.function name parameters result body)).places id.index)
    (hr : (sweep arena bindings).ready first (id.index + 1) state) :
    (nodeStep arena ofDefinition ofWritten typeOf check id).Runs (Rejects arena bindings) state
      fun _ after => (sweep arena bindings).done first (id.index + 1) state after := by
  have hlookup := hlooks hk hr.1 first
  obtain ⟨middle, hsignature, hbody, hend⟩ := hf.function
  have hsl := hsignature.le
  have hbl := hbody.le
  simp only [nodeStep, hk, Pass.runs_bind]
  refine hlookup.mono fun type typed hl => ?_
  obtain ⟨hdone, htype, hkept⟩ := hl
  obtain ⟨types, yielded, _, _, hyielded, rfl⟩ := htype.derives hk
  have hgood := (hdone.1 hr.1).1
  have hsources := hgood.closed hk (by simp [hkept])
  have hmembers : ∀ member ∈ Arena.signaturePlaces parameters result,
      (typed.types.get? member.2).isSome := by
    intro member hm
    refine hsources member.2 ?_
    simpa [Arena.signaturePlaces, NodeKind.sources] using List.mem_map_of_mem (f := Prod.snd) hm
  have hfront : (sweep arena bindings).done first middle state typed :=
    ⟨hdone.1, hdone.2.extend (by omega) fun node kind hn ht hi hl =>
      hgood.checked_forest hsignature Arena.signaturePlaces_types hmembers hn hi hl⟩
  have hready : (sweep arena bindings).ready middle (body.index + 1) typed := by
    have hbehind := (sweep arena bindings).ready_behind (by omega) (by omega) hr hfront
    exact ⟨hbehind.1, hbehind.2.mono (Nat.le_refl _) (by omega)⟩
  dsimp only
  simp only [Pass.runs_bind]
  refine (hfinds .expression body (by omega) (.inl rfl) _ hbody typed hready).mono
    fun type after ha => ?_
  have hinterval := (sweep arena bindings).trans (by omega) (by omega) hfront ha.1
  rw [hend] at hinterval
  split
  · next he =>
    refine ⟨hinterval.1, hinterval.2.extend (Nat.le_succ _) fun node kind hn ht hi hl => ?_⟩
    obtain rfl : node = id := NodeId.eq_of_index (by omega)
    cases hk.symm.trans hn
    refine ⟨ha.1.2.isSome (by simp [hkept]), fun _ _ _ _ hd => ?_⟩
    cases hd
    exact ⟨yielded, hyielded, he ▸ ha.2⟩
  · next he =>
    refine runs_mismatch trivial fun hw => he ?_
    obtain ⟨written, hresult, hb⟩ := hw.body hk
    rw [ha.2.unique hb, hyielded.unique hresult]

omit hbound hvisits in
/-- A definition is checked by finding its type; the body of a function must have the type of its
result. -/
theorem definition_runs {definition : Definition}
    (hk : arena.kind? id = some (.definition definition))
    (hf : arena.Forest first (NodeKind.definition definition).places id.index)
    (hr : (sweep arena bindings).ready first (id.index + 1) state) :
    (nodeStep arena ofDefinition ofWritten typeOf check id).Runs (Rejects arena bindings) state
      fun _ after => (sweep arena bindings).done first (id.index + 1) state after := by
  have hle := hf.le
  cases definition with
  | function name parameters result body => exact function_runs hlooks hfinds hk hf hr
  | var name written | type name written | parameter name written =>
    simp only [nodeStep, hk, Pass.runs_bind, Pass.runs_pure]
    refine (hlooks hk hr.1 first).mono fun type after hl => ?_
    obtain ⟨⟨hsettled, hcovers⟩, htype, hkept⟩ := hl
    have hgood := (hsettled hr.1).1
    have hwritten := hgood.closed hk (by simp [hkept]) written (by simp [NodeKind.sources])
    refine ⟨hsettled, hcovers.extend (Nat.le_succ_of_le hle) fun node kind hn ht hi hl => ?_⟩
    rcases Nat.lt_or_ge node.index id.index with hlt | hge
    · exact hgood.checked_forest hf (by simp [NodeKind.places])
        (by simpa [NodeKind.places] using hwritten) hn hi hlt
    · obtain rfl : node = id := NodeId.eq_of_index (by omega)
      cases hk.symm.trans hn
      exact ⟨by simp [hkept], fun _ _ _ _ hd => by cases hd⟩

omit hbound hlooks hfinds in
/-- The members of a definition list are checked in their order. -/
theorem members_runs {members : List NodeId} (hk : arena.kind? id = some (.definitions members))
    (hf : arena.Forest first (NodeKind.definitions members).places id.index)
    (hr : (sweep arena bindings).ready first (id.index + 1) state) :
    (nodeStep arena ofDefinition ofWritten typeOf check id).Runs (Rejects arena bindings) state
      fun _ after => (sweep arena bindings).done first (id.index + 1) state after := by
  have hle := hf.le
  have hmembers : ((NodeKind.definitions members).places.map Prod.snd) = members := by
    simp [NodeKind.places, Function.comp_def]
  have hrun := (sweep arena bindings).runs_forM hf (fun place below hm => by
    obtain ⟨_, _, _, hl⟩ := hf.subtree hm
    have hp : place = .definition := by
      obtain ⟨_, _, he⟩ := List.mem_map.mp hm
      exact (Prod.mk.inj he).1.symm
    exact hvisits place below hl (.inr hp))
    ((sweep arena bindings).ready_front hle (Nat.le_succ _) hr)
  rw [hmembers] at hrun
  simp only [nodeStep, hk]
  refine hrun.mono fun _ after ha => ?_
  refine ⟨ha.1, ha.2.extend (Nat.le_succ _) fun node kind hn htyped hi hl => ?_⟩
  obtain rfl : node = id := NodeId.eq_of_index (by omega)
  cases hk.symm.trans hn
  cases htyped

end Node

/-- Keeping the type of an expression closes the interval that ends with it. -/
theorem done_record {expression : Expression} (hk : arena.kind? id = some (.expression expression))
    (ht : HasType arena bindings id type)
    (hsettled : Settled arena bindings state → Settled arena bindings between)
    (hcovers : Covers arena bindings first id.index state between)
    (hn : between.types.get? id = none)
    (hb : after.begun = between.begun)
    (hs : ∀ other, after.types.get? other = if other = id then some type else
      between.types.get? other) (hle : first ≤ id.index) :
    (sweep arena bindings).done first (id.index + 1) state after := by
  have hother : ∀ other found, between.types.get? other = some found → other ≠ id := by
    rintro other found hf rfl
    simp [hn] at hf
  constructor
  · intro h
    obtain ⟨hgood, hidle⟩ := hsettled h
    refine ⟨hgood.store hk ht (fun _ he => by cases he) (by simp [NodeKind.sources]) hb hs, ?_⟩
    intro other definition hk' hbusy
    have hd : other ≠ id := by
      rintro rfl
      cases hk.symm.trans hk'
    simp only [State.Busy, hb, hs, if_neg hd] at hbusy
    exact hidle other definition hk' hbusy
  · constructor
    · intro other found hf
      have hf := hcovers.types hf
      rw [hs, if_neg (hother other found hf)]
      exact hf
    · intro other item hk' ho
      have hd : other ≠ id := by
        rintro rfl
        omega
      rw [hs, if_neg hd]
      exact hcovers.outside hk' (by omega)
    · intro other kind hk' htyped hfirst hlast
      simp only [Checked, hs]
      split
      · next hd =>
        subst hd
        cases hk.symm.trans hk'
        exact ⟨rfl, fun _ _ _ _ he => by cases he⟩
      · next hd =>
        have hindex : other.index ≠ id.index := fun he => hd (NodeId.eq_of_index he)
        exact hcovers.inside hk' htyped hfirst (by omega)

/-- As long as the bound has room for the nodes behind a node, its type is found if it is an
expression, and it is checked if it is a definition or a definition list. -/
theorem within_runs (ht : arena.IsTree) (hbound : Binding.Bound arena bindings) :
    ∀ (fuel : Nat) (id : NodeId), arena.depthBound + id.index + 1 ≤ fuel + arena.size →
      (∀ place, place = .expression ∨ place = .counter →
        Finds arena bindings (expressionTypeWithin arena bindings fuel) place id) ∧
      (∀ place, place = .definitions ∨ place = .definition →
          (sweep arena bindings).Visits arena (Rejects arena bindings)
            (checkWithin arena bindings fuel) place id) := by
  intro fuel
  induction fuel with
  | zero =>
    intro id h
    have hdepth := arena.size_lt_depthBound
    omega
  | succ fuel ih =>
    intro id hid
    have hlooks : LooksUp arena bindings (definitionTypeWithin arena bindings fuel) :=
      definitionTypeWithin_looksUp ht hbound (by omega)
    have hfinds : ∀ place below, below.index < id.index → place = .expression ∨ place = .counter →
        Finds arena bindings (expressionTypeWithin arena bindings fuel) place below :=
      fun place below hb hp => (ih below (by omega)).1 place hp
    have hvisits : ∀ place below, below.index < id.index →
        place = .definitions ∨ place = .definition →
        (sweep arena bindings).Visits arena (Rejects arena bindings)
          (checkWithin arena bindings fuel) place below :=
      fun place below hb hp => (ih below (by omega)).2 place hp
    constructor
    · intro place hp start hs state hr
      obtain ⟨kind, hk, ha, hregular, hf⟩ := Arena.subtree_iff.mp hs
      have hle := hf.le
      cases kind with
      | definitions | definition | type => rcases hp with rfl | rfl <;> cases ha
      | expression expression =>
        have hexpression : arena.expression? id = some expression := by
          simp [Arena.expression?, hk]
        have hnone := hr.2 id expression hk hle (Nat.lt_succ_self _)
        simp only [expressionTypeWithin, memoized, Pass.runs_bind, Pass.runs_get, hnone,
          hexpression]
        refine (expressionStep_runs hbound hlooks hfinds hvisits hk hregular hf
          ((sweep arena bindings).ready_front hle (Nat.le_succ _) hr)).mono fun type found hl => ?_
        obtain ⟨⟨hsettled, hcovers⟩, htype⟩ := hl
        have hstill : found.types.get? id = none :=
          (hcovers.outside hk (Or.inr (Nat.le_refl _))).trans hnone
        refine (record_runs hstill).mono fun value after hrec => ?_
        obtain ⟨rfl, hb, hs⟩ := hrec
        exact ⟨done_record hk htype hsettled hcovers hstill hb hs hle, htype⟩
    · intro place hp start hs state hr
      obtain ⟨kind, hk, ha, _, hf⟩ := Arena.subtree_iff.mp hs
      rw [checkWithin]
      cases kind with
      | definitions members => exact members_runs hvisits hk hf hr
      | definition definition => exact definition_runs hlooks hfinds hk hf hr
      | expression | type => rcases hp with rfl | rfl <;> cases ha

/-- Every node but a definition list has a type, and every type is that of its node. The body of a
function has the type of its result. -/
structure Typed (arena : Arena) (bindings : NodeTable NodeId) (types : NodeTable Ty) : Prop where
  /-- A type that is kept is that of its node. -/
  sound : ∀ {id type}, types.get? id = some type → HasType arena bindings id type
  /-- Every node but a definition list has a type. -/
  total : ∀ {id kind}, arena.kind? id = some kind → kind.isTyped = true → (types.get? id).isSome
  /-- The body of a function has the type of its result. -/
  body : ∀ {id name parameters result body},
    arena.kind? id = some (.definition (.function name parameters result body)) →
    ∃ type, HasType arena bindings result type ∧ HasType arena bindings body type

/-- Any interval can be visited first. -/
theorem ready_initial : (sweep arena bindings).ready first last .initial := by
  refine ⟨⟨⟨?_, ?_, ?_⟩, ?_⟩, ?_⟩
  · intro id type h
    simp [State.initial] at h
  · intro id definition _ h
    simp [State.initial] at h
  · intro id kind _ h
    simp [State.initial] at h
  · intro id definition _ h
    simp [State.Busy, State.initial] at h
  · intro id expression _ _ _
    simp [State.initial]

/-- The whole program is typed under its top-level definitions. -/
theorem check_root_runs {root : NodeId} (ht : arena.IsTree)
    (hbound : Binding.Bound arena bindings) (hs : arena.Subtree .definitions 0 root)
    (hsize : root.index + 1 = arena.size) :
    (check arena bindings root).Runs (Rejects arena bindings) .initial fun _ after =>
      Typed arena bindings after.types := by
  have hdepth := arena.size_lt_depthBound
  have hready : (sweep arena bindings).ready 0 (root.index + 1) .initial := ready_initial
  refine ((within_runs ht hbound _ root (by omega)).2 .definitions (.inl rfl) 0 hs _ hready).mono
    fun _ after ha => ?_
  have hall : ∀ {id kind}, arena.kind? id = some kind → kind.isTyped = true →
      Checked arena bindings after id kind := by
    intro id kind hk htyped
    have hlt := Arena.index_lt_size hk
    exact ha.2.inside hk htyped (Nat.zero_le _) (by omega)
  exact ⟨(ha.1 hready.1).1.sound, fun hk htyped => (hall hk htyped).1,
    fun hk => (hall hk rfl).2 _ _ _ _ rfl⟩

/-- Typing a bound program stops only for a fault of types, in a program that is not well-typed. -/
theorem ofArena_rejects {diagnostic : Diagnostic} (ht : arena.IsTree)
    (hbound : Binding.Bound arena bindings) (h : ofArena arena bindings = .error diagnostic) :
    Rejects arena bindings diagnostic := by
  have ⟨root, hroot, hsize, hs⟩ := ht
  simp only [ofArena, hroot] at h
  exact (check_root_runs ht hbound hs hsize).of_map_error h

/-- Typing a bound program stops only for a fault of types. -/
theorem ofArena_refuses {diagnostic : Diagnostic} (ht : arena.IsTree)
    (hbound : Binding.Bound arena bindings) (h : ofArena arena bindings = .error diagnostic) :
    Refuses diagnostic.fault :=
  (ofArena_rejects ht hbound h).1

/-- The types of a bound program that was read are those of all its nodes. -/
theorem ofArena_typed {types : NodeTable Ty} (ht : arena.IsTree)
    (hbound : Binding.Bound arena bindings) (h : ofArena arena bindings = .ok types) :
    Typed arena bindings types := by
  have ⟨root, hroot, hsize, hs⟩ := ht
  simp only [ofArena, hroot] at h
  obtain ⟨_, after, htyped, rfl⟩ := (check_root_runs ht hbound hs hsize).of_map_ok h
  exact htyped

/-- A typed program is well-typed. -/
theorem Typed.wellTyped {types : NodeTable Ty} (h : Typed arena bindings types) :
    WellTyped arena bindings where
  total hk ht := (Option.isSome_iff_exists.mp (h.total hk ht)).imp fun _ hf => h.sound hf
  body := h.body

/-- The types of a typed program are exactly those of its nodes. -/
theorem Typed.get?_eq_some_iff {types : NodeTable Ty} (h : Typed arena bindings types) :
    types.get? id = some type ↔ HasType arena bindings id type := by
  refine ⟨h.sound, fun ht => ?_⟩
  obtain ⟨kind, hk, htyped⟩ := ht.exists_kind
  obtain ⟨found, hf⟩ := Option.isSome_iff_exists.mp (h.total hk htyped)
  rw [hf, (h.sound hf).unique ht]

/-- What a typed program keeps and hands over has a size. -/
theorem Typed.sized {types : NodeTable Ty} (ht : arena.IsTree) (h : Typed arena bindings types) :
    Layout.Sized arena types := by
  have hmeasured : ∀ {id kind}, arena.kind? id = some kind → kind.isTyped = true →
      Layout.Measured types Ty.size? id := by
    intro id kind hk htyped
    obtain ⟨type, hf⟩ := Option.isSome_iff_exists.mp (h.total hk htyped)
    exact ⟨type, hf, Ty.isSome_size?_of_isMeasured (h.sound hf).isMeasured⟩
  constructor
  · intro id kind _ hk hv
    refine hmeasured hk ?_
    cases kind <;> first | rfl | cases hv
  · intro id callee arguments _ hc argument hm
    have hk := Arena.kind?_of_expression? hc
    obtain ⟨place, start, hs⟩ := ht.exists_subtree hk
    have hplace : (Place.expression, argument) ∈
        (NodeKind.expression (.call callee arguments)).places :=
      List.mem_map.mpr ⟨argument, hm, rfl⟩
    obtain ⟨_, hsub, _⟩ := hs.child hk hplace
    obtain ⟨kind, hkind, ha, _, _⟩ := Arena.subtree_iff.mp hsub
    refine (hmeasured hkind ?_).argument
    cases kind <;> first | rfl | cases ha

end Typing

end Pins
