import Pins.Lowering
import Pins.Proofs.Typed

/-!
# Lowered programs

Lowering a program that was bound, typed and laid out always ends with a value: whatever it asks the
earlier passes for has been found by them. Behind it exactly the expressions have an expression, and
exactly the functions a statement, of intermediate code (`ofProgram_lowered`).
-/

namespace Pins.Lowering

variable {program : Program} {id : NodeId} {place : Place} {kind : NodeKind}
  {first middle last : Nat} {state between after : State}

/-- A program with what the earlier passes found out about it. -/
structure Prepared (program : Program) : Prop where
  /-- The program was read. -/
  tree : program.arena.IsTree
  /-- References are bound. -/
  bound : Binding.Bound program.arena program.bindings
  /-- References mean what stands in a function around them. -/
  lexical : ∀ id, Binding.Lexical program.arena id (program.bindings.get? id)
  /-- Nodes have types. -/
  typed : Typing.Typed program.arena program.bindings program.types
  /-- Functions have frames, and what keeps a value has an access. -/
  laidOut : Layout.LaidOut program.arena program.types program.layout

/-- An expression has an expression as its code and a function a statement, and nothing else has
any. -/
def TreeRight (arena : Arena) (id : NodeId) (tree : Option Ir.Tree) : Prop :=
  match arena.kind? id with
  | some (.expression _) => ∃ code, tree = some (.expr code)
  | some (.definition (.function ..)) => ∃ code, tree = some (.stmt code)
  | _ => tree = none

/-- Visits of neighbouring intervals that lower whatever has code. -/
def sweep (arena : Arena) : Sweep State where
  ready first last state := state.trees.Unset first last
  done first last before after :=
    NodeTable.Fills first last (TreeRight arena) before.trees after.trees
  refl _ _ := .refl _
  trans hl hr hf hs := hf.trans hl hr hs
  ready_front _ hr h := h.mono (Nat.le_refl _) hr
  ready_behind hl _ h hd := (h.mono hl (Nat.le_refl _)).behind hd

/-- No fault is allowed. -/
abbrev Never (_ : Diagnostic) : Prop := False

theorem requireType_runs (h : Prepared program) (hk : program.arena.kind? id = some kind)
    (ht : kind.isTyped = true) :
    (requireType program id).Runs Never state fun type after =>
      after = state ∧ program.types.get? id = some type := by
  obtain ⟨type, hf⟩ := Option.isSome_iff_exists.mp (h.typed.total hk ht)
  simp [requireType, hf]

theorem requireAccess_runs (h : Prepared program) (hk : program.arena.kind? id = some kind)
    (hv : kind.keepsValue = true) :
    (requireAccess program id).Runs Never state fun access after =>
      after = state ∧ program.layout.accesses.get? id = some access := by
  have hright := (h.laidOut.access id (Arena.index_lt_size hk)).1
  simp only [hk, Option.any_some, hv] at hright
  obtain ⟨access, hf⟩ := Option.isSome_iff_exists.mp hright
  simp [requireAccess, hf]

theorem requireFrame_runs (h : Prepared program) (hk : program.arena.kind? id = some kind)
    (hn : kind.isFunction = true) :
    (requireFrame program id).Runs Never state fun frame after =>
      after = state ∧ program.layout.frames.get? id = some frame := by
  have hright := h.laidOut.frame id (Arena.index_lt_size hk)
  simp only [Layout.FrameRight, hk, Option.any_some, hn] at hright
  obtain ⟨frame, hf⟩ := Option.isSome_iff_exists.mp hright
  simp [requireFrame, hf]

/-- The code of a node that has none yet is kept. -/
theorem record_runs {tree : Ir.Tree} (hn : state.trees.get? id = none)
    (ht : TreeRight program.arena id (some tree)) :
    (record program id tree).Runs Never state fun _ after =>
      (sweep program.arena).done id.index (id.index + 1) state after := by
  obtain ⟨trees, hs⟩ := NodeTable.exists_store? tree hn
  simp only [record, Pass.runs_bind, Pass.runs_get, hs, Pass.runs_set]
  exact .store hs ht

/-- Nodes without code are lowered by doing nothing. -/
theorem done_skip (hu : state.trees.Unset first last)
    (hn : ∀ id : NodeId, first ≤ id.index → id.index < last →
      TreeRight program.arena id none) : (sweep program.arena).done first last state state :=
  .skip hu hn

/-- Parameters and written types are lowered by doing nothing. -/
theorem done_signature {places : List (Place × NodeId)}
    (h : program.arena.Forest first places last)
    (hp : ∀ member ∈ places, member.1 = Place.type ∨ member.1 = Place.parameter)
    (hu : state.trees.Unset first last) : (sweep program.arena).done first last state state := by
  refine done_skip hu fun node hf hl => ?_
  obtain ⟨kind, hk, hs⟩ := h.signature hp hf hl
  cases kind with
  | type written => simp [TreeRight, hk]
  | definition item =>
    cases item with
    | parameter => simp [TreeRight, hk]
    | function | var | type => cases hs
  | definitions | expression => cases hs

/-- A literal has code: an integer fits a signed word. -/
theorem lowerLiteral_runs {value : String} {word : Atom}
    (hregular : (NodeKind.expression (.literal value word)).isRegular = true) :
    (lowerLiteral program id value word).Runs Never state fun _ after =>
      after.trees = state.trees := by
  cases word with
  | integer =>
    obtain ⟨number, hn⟩ := Option.isSome_iff_exists.mp hregular
    simp [lowerLiteral, hn]
  | logical => simp [lowerLiteral]
  | string => simp [lowerLiteral, freshLabel, emit]

/-- A name has code: its definition has a type and an access. -/
theorem lowerName_runs (h : Prepared program) {word : String}
    (hk : program.arena.kind? id = some (.expression (.name word))) :
    (lowerName program id).Runs Never state fun _ after => after.trees = state.trees := by
  have hright := h.bound id (Arena.index_lt_size hk)
  simp only [Binding.BoundRight, hk, Option.bind_some, NodeKind.accepted?] at hright
  obtain ⟨target, definition, hb, hd, hkind⟩ := hright
  have htarget := Arena.kind?_of_definition? hd
  have hv : (NodeKind.definition definition).keepsValue = true := by
    cases definition <;> first | rfl | simp [Definition.kind] at hkind
  simp only [lowerName, hb, Pass.runs_bind]
  refine (requireType_runs h htarget rfl).mono fun type reached ht => ?_
  obtain ⟨rfl, _⟩ := ht
  refine (requireAccess_runs h htarget hv).mono fun access after ha => ?_
  obtain ⟨rfl, _⟩ := ha
  cases access <;> simp

/-- An operation has code: what is indexed is an array of elements with a size. -/
theorem lowerBinary_runs (h : Prepared program) {operator : BinaryOperator} {left right : NodeId}
    {leftCode rightCode : Ir.Expr}
    (hk : program.arena.kind? id = some (.expression (.binary operator left right)))
    (hleft : ∃ expression, program.arena.kind? left = some (.expression expression)) :
    (lowerBinary program id left operator leftCode rightCode).Runs Never state fun _ after =>
      after = state := by
  cases operator with
  | assign => simp [lowerBinary]
  | index =>
    obtain ⟨expression, hl⟩ := hleft
    obtain ⟨type, htype⟩ := Option.isSome_iff_exists.mp (h.typed.total hk rfl)
    obtain ⟨leftType, rightType, hleftType, _, hcombined⟩ := (h.typed.sound htype).derives hk
    simp only [lowerBinary, Pass.runs_bind]
    refine (requireType_runs h hl rfl).mono fun found reached ht => ?_
    obtain ⟨rfl, hfound⟩ := ht
    obtain rfl := (h.typed.sound hfound).unique hleftType
    cases found with
    | integer | logical | string | void | function => simp [Typing.combined?] at hcombined
    | array length element =>
      have hmeasured := hleftType.isMeasured
      simp only [Ty.isMeasured, Bool.and_eq_true] at hmeasured
      obtain ⟨size, hsize⟩ :=
        Option.isSome_iff_exists.mp (Ty.isSome_size?_of_isMeasured hmeasured.2)
      simp [Ty.element?, hsize]
  | or | and | eq | neq | lt | gt | leq | geq | add | sub | mul | div | mod =>
    simp [lowerBinary, Ir.Operator.ofBinary?]

section Node

variable {lower : NodeId → Lower Ir.Expr} (h : Prepared program)
  (hlower : ∀ place below, below.index < id.index → place = .expression ∨ place = .counter →
    (sweep program.arena).Visits program.arena Never lower place below)

include hlower

/-- Expressions are lowered one by one. -/
theorem children_run {places : List (Place × NodeId)}
    (hf : program.arena.Forest first places last) (hlast : last ≤ id.index)
    (hp : ∀ member ∈ places, member.1 = Place.expression ∨ member.1 = Place.counter)
    (hr : state.trees.Unset first last) :
    Pass.Runs Never ((places.map Prod.snd).mapM lower) state fun _ after =>
      (sweep program.arena).done first last state after := by
  refine (sweep program.arena).runs_mapM hf (fun place below hm => ?_) hr
  obtain ⟨_, _, _, hl⟩ := hf.subtree hm
  exact hlower place below (by omega) (hp _ hm)

/-- A choice is lowered through its parts. -/
theorem lowerConditional_runs {condition thenBranch : NodeId} {elseBranch : Option NodeId}
    (hf : program.arena.Forest first
      (NodeKind.expression (.conditional condition thenBranch elseBranch)).places id.index)
    (hr : state.trees.Unset first id.index) :
    (lowerConditional lower condition thenBranch elseBranch).Runs Never state fun _ after =>
      (sweep program.arena).done first id.index state after := by
  let sw := sweep program.arena
  simp only [NodeKind.places, Expression.children, List.map_cons, Arena.forest_cons_iff] at hf
  obtain ⟨htest, hthen, helse⟩ := hf
  have htl := htest.le
  have hbl := hthen.le
  have hel := helse.le
  simp only [lowerConditional, Pass.runs_bind]
  refine (hlower .expression condition (by omega) (.inl rfl) _ htest state
    (sw.ready_front (by omega) (by omega) hr)).mono fun _ tested hc => ?_
  have htested := sw.ready_behind (by omega) (by omega) hr hc
  refine (hlower .expression thenBranch (by omega) (.inl rfl) _ hthen tested
    (sw.ready_front (by omega) (by omega) htested)).mono fun _ chosen hb => ?_
  have hchosen := sw.trans (by omega) (by omega) hc hb
  have hready := sw.ready_behind (by omega) (by omega) hr hchosen
  simp only [freshLabel, Pass.runs_bind, Pass.runs_get, Pass.runs_modify, Pass.runs_pure]
  cases elseBranch with
  | none =>
    have hend : thenBranch.index + 1 = id.index := Arena.forest_nil_iff.mp helse
    rw [← hend]
    simp only [Pass.runs_pure]
    exact hchosen
  | some branch =>
    simp only [Option.toList_some, List.map_cons, List.map_nil, Arena.forest_cons_iff,
      Arena.forest_nil_iff] at helse
    obtain ⟨hbranch, hend⟩ := helse
    have hle := hbranch.le
    rw [← hend]
    simp only [Pass.runs_bind, Pass.runs_get, Pass.runs_modify, Pass.runs_pure]
    let labelled : State := { chosen with labels := chosen.labels.rest.rest }
    have hbranchRun := hlower .expression branch (by omega) (.inl rfl) _ hbranch labelled
      (sw.ready_front (by omega) (by omega) hready)
    exact hbranchRun.mono fun _ after ha => sw.trans (by omega) (by omega) hchosen ha

/-- A loop under a condition is lowered through its parts. -/
theorem lowerWhile_runs {condition body : NodeId}
    (hf : program.arena.Forest first
      (NodeKind.expression (.whileLoop condition body)).places id.index)
    (hr : state.trees.Unset first id.index) :
    (lowerWhile lower condition body).Runs Never state fun _ after =>
      (sweep program.arena).done first id.index state after := by
  let sw := sweep program.arena
  simp only [NodeKind.places, Expression.children, List.map_cons, List.map_nil,
    Arena.forest_cons_iff, Arena.forest_nil_iff] at hf
  obtain ⟨htest, hbody, hend⟩ := hf
  have htl := htest.le
  have hbl := hbody.le
  simp only [lowerWhile, Pass.runs_bind]
  refine (hlower .expression condition (by omega) (.inl rfl) _ htest state
    (sw.ready_front (by omega) (by omega) hr)).mono fun _ tested hc => ?_
  have htested := sw.ready_behind (by omega) (by omega) hr hc
  refine (hlower .expression body (by omega) (.inl rfl) _ hbody tested
    (sw.ready_front (by omega) (by omega) htested)).mono fun _ after ha => ?_
  simp only [freshLabel, Pass.runs_bind, Pass.runs_get, Pass.runs_modify, Pass.runs_pure]
  rw [← hend]
  exact sw.trans (by omega) (by omega) hc ha

/-- A counting loop is lowered through its parts. -/
theorem lowerFor_runs {counter low high step body : NodeId}
    (hf : program.arena.Forest first
      (NodeKind.expression (.forLoop counter low high step body)).places id.index)
    (hr : state.trees.Unset first id.index) :
    (lowerFor lower counter low high step body).Runs Never state fun _ after =>
      (sweep program.arena).done first id.index state after := by
  let sw := sweep program.arena
  simp only [NodeKind.places, Arena.forest_cons_iff, Arena.forest_nil_iff] at hf
  obtain ⟨hcounter, hlow, hhigh, hstep, hbody, hend⟩ := hf
  have hcl := hcounter.le
  have hll := hlow.le
  have hhl := hhigh.le
  have hsl := hstep.le
  have hbl := hbody.le
  simp only [lowerFor, Pass.runs_bind]
  refine (hlower .counter counter (by omega) (.inr rfl) _ hcounter state
    (sw.ready_front (by omega) (by omega) hr)).mono fun _ counted hc => ?_
  have hrest := sw.ready_behind (by omega) (by omega) hr hc
  refine (hlower .expression low (by omega) (.inl rfl) _ hlow counted
    (sw.ready_front (by omega) (by omega) hrest)).mono fun _ lowered hl => ?_
  have hrest := sw.ready_behind (by omega) (by omega) hrest hl
  refine (hlower .expression high (by omega) (.inl rfl) _ hhigh lowered
    (sw.ready_front (by omega) (by omega) hrest)).mono fun _ bounded hh => ?_
  have hrest := sw.ready_behind (by omega) (by omega) hrest hh
  refine (hlower .expression step (by omega) (.inl rfl) _ hstep bounded
    (sw.ready_front (by omega) (by omega) hrest)).mono fun _ stepped hs => ?_
  have hrest := sw.ready_behind (by omega) (by omega) hrest hs
  refine (hlower .expression body (by omega) (.inl rfl) _ hbody stepped
    (sw.ready_front (by omega) (by omega) hrest)).mono fun _ after ha => ?_
  simp only [freshLabel, Pass.runs_bind, Pass.runs_get, Pass.runs_modify, Pass.runs_pure]
  rw [← hend]
  have htail := sw.trans (by omega) (by omega) hs ha
  have htail := sw.trans (by omega) (by omega) hh htail
  have htail := sw.trans (by omega) (by omega) hl htail
  exact sw.trans (by omega) (by omega) hc htail

/-- A block has a last expression, and all its expressions are lowered. -/
theorem lowerBlock_runs {expressions : List NodeId}
    (hregular : (NodeKind.expression (.block expressions)).isRegular = true)
    (hf : program.arena.Forest first (NodeKind.expression (.block expressions)).places id.index)
    (hr : state.trees.Unset first id.index) :
    (lowerBlock program lower id expressions).Runs Never state fun _ after =>
      (sweep program.arena).done first id.index state after := by
  let sw := sweep program.arena
  have hn : expressions ≠ [] := by
    rintro rfl
    simp [NodeKind.isRegular] at hregular
  have hsplit := List.dropLast_concat_getLast hn
  have hlast := List.getLast?_eq_some_getLast hn
  simp only [NodeKind.places, Expression.children] at hf
  rw [← hsplit, List.map_append, Arena.forest_append_iff] at hf
  obtain ⟨middle, hfront, hback⟩ := hf
  simp only [List.map_cons, List.map_nil, Arena.forest_cons_iff, Arena.forest_nil_iff] at hback
  obtain ⟨hfinal, hend⟩ := hback
  have hfl := hfront.le
  have hll := hfinal.le
  have hstatements : Pass.Runs Never (expressions.dropLast.mapM fun expression => do
      return Ir.Stmt.exp (← lower expression)) state fun _ between =>
        sw.done first middle state between := by
    let step : NodeId → Lower Ir.Stmt := fun expression => do
      return Ir.Stmt.exp (← lower expression)
    have hvisits : ∀ place below, (place, below) ∈ expressions.dropLast.map (.expression, ·) →
        sw.Visits program.arena Never step place below := by
      intro place below hm start hs reached hready
      obtain ⟨_, _, _, hl⟩ := hfront.subtree hm
      obtain ⟨_, _, he⟩ := List.mem_map.mp hm
      simp only [step, Pass.runs_bind, Pass.runs_pure]
      exact hlower place below (by omega) (.inl (Prod.mk.inj he).1.symm) start hs reached hready
    have hrun := sw.runs_mapM hfront hvisits (sw.ready_front (by omega) (by omega) hr)
    rw [List.map_map, List.map_id''] at hrun
    · exact hrun
    · exact fun _ => rfl
  simp only [lowerBlock, hlast, Pass.runs_bind]
  refine hstatements.mono fun _ between hb => ?_
  refine (hlower .expression _ (by omega) (.inl rfl) _ hfinal between
    (sw.ready_front (by omega) (by omega) (sw.ready_behind (by omega) (by omega) hr hb))).mono
      fun _ after ha => ?_
  rw [Pass.runs_pure, ← hend]
  exact sw.trans (by omega) (by omega) hb ha

include h

/-- A call is lowered through its arguments; a function that is called has a frame. -/
theorem lowerCall_runs {callee : String} {arguments : List NodeId}
    (hk : program.arena.kind? id = some (.expression (.call callee arguments)))
    (hf : program.arena.Forest first (NodeKind.expression (.call callee arguments)).places id.index)
    (hr : state.trees.Unset first id.index) :
    (lowerCall program lower id callee arguments).Runs Never state fun _ after =>
      (sweep program.arena).done first id.index state after := by
  have harguments : ((NodeKind.expression (.call callee arguments)).places.map Prod.snd) =
      arguments := by
    simp [NodeKind.places, Expression.children, Function.comp_def]
  have hrun := children_run hlower hf (Nat.le_refl _)
    (by simp [NodeKind.places, Expression.children]) hr
  rw [harguments] at hrun
  simp only [lowerCall, Pass.runs_bind]
  refine hrun.mono fun codes visited hv => ?_
  by_cases hb : Builtin.isRoutine callee = true
  · simpa [hb] using hv
  · have hright := h.bound id (Arena.index_lt_size hk)
    simp only [Binding.BoundRight, hk, Option.bind_some, NodeKind.accepted?, hb,
      Bool.false_eq_true, if_false] at hright
    obtain ⟨target, definition, hbound, hd, hkind⟩ := hright
    have hn : (NodeKind.definition definition).isFunction = true := by
      cases definition <;> first | rfl | simp [Definition.kind] at hkind
    simp only [hb, Bool.false_eq_true, if_false, hbound, Pass.runs_bind]
    refine (requireFrame_runs h (Arena.kind?_of_definition? hd) hn).mono fun frame after hf => ?_
    obtain ⟨rfl, _⟩ := hf
    simpa using hv

/-- A function is lowered through its body, at its own level. -/
theorem lowerFunction_runs {name : String} {parameters : List NodeId} {result body : NodeId}
    (hk : program.arena.kind? id =
      some (.definition (.function name parameters result body)))
    (hf : program.arena.Forest first
      (NodeKind.definition (.function name parameters result body)).places id.index)
    (hr : state.trees.Unset first (id.index + 1)) :
    (lowerFunction program lower id body).Runs Never state fun _ after =>
      (sweep program.arena).done first (id.index + 1) state after := by
  have hle := hf.le
  obtain ⟨middle, hsignature, hbody, hend⟩ := hf.function
  have hsl := hsignature.le
  have hbl := hbody.le
  have hfront : (sweep program.arena).done first middle state state :=
    done_signature hsignature Arena.signaturePlaces_types (hr.mono (Nat.le_refl _) (by omega))
  simp only [lowerFunction, Pass.runs_bind]
  refine (requireFrame_runs h hk rfl).mono fun frame reached hfr => ?_
  obtain ⟨rfl, _⟩ := hfr
  simp only [atLevel, Pass.runs_bind, Pass.runs_get, Pass.runs_modify, Pass.runs_leaving]
  let inside : State := { reached with level := frame.level }
  have hbodyRun := hlower .expression body (by omega) (.inl rfl) _ hbody inside
    (hr.mono (by omega) (by omega))
  refine hbodyRun.mono fun value lowered hl => ?_
  have hinterval := (sweep program.arena).trans (by omega) (by omega) hfront hl
  rw [hend] at hinterval
  let outside : State := { lowered with level := reached.level }
  have hnone : outside.trees.get? id = none :=
    (hinterval.outside id (Or.inr (Nat.le_refl _))).trans (hr id hle (Nat.lt_succ_self _))
  have hrecord : (record program id (.stmt (.move (.memory Ir.framePointer) value))).Runs Never
      outside fun _ after => (sweep program.arena).done id.index (id.index + 1) outside after :=
    record_runs hnone (by simp [TreeRight, hk])
  refine hrecord.mono fun _ after hdone => ?_
  simp only [emit, Pass.runs_modify]
  exact (sweep program.arena).trans hle (Nat.le_succ _) hinterval hdone

/-- A definition is lowered: a function through its body, all else by itself. -/
theorem lowerDefinition_runs {start : Nat} (hs : program.arena.Subtree .definition start id)
    (hr : state.trees.Unset start (id.index + 1)) :
    (lowerDefinition program lower id).Runs Never state fun _ after =>
      (sweep program.arena).done start (id.index + 1) state after := by
  obtain ⟨kind, hk, ha, _, hf⟩ := Arena.subtree_iff.mp hs
  have hle := hf.le
  cases kind with
  | definitions | expression | type => cases ha
  | definition definition =>
    have hdefinition : program.arena.definition? id = some definition := by
      simp [Arena.definition?, hk]
    cases definition with
    | parameter => cases ha
    | var name written | type name written =>
      have hall : (sweep program.arena).done start (id.index + 1) state state := by
        refine (sweep program.arena).trans hle (Nat.le_succ _)
          (done_signature hf (by simp [NodeKind.places]) (hr.mono (Nat.le_refl _) (Nat.le_succ _)))
          (done_skip (hr.mono hle (Nat.le_refl _)) fun node hi hl => ?_)
        obtain rfl : node = id := NodeId.eq_of_index (by omega)
        simp [TreeRight, hk]
      simp only [lowerDefinition, hdefinition, Pass.runs_bind, Pass.runs_pure]
      first
      | exact hall
      | refine (requireAccess_runs h hk rfl).mono fun access reached hacc => ?_
        obtain ⟨rfl, _⟩ := hacc
        cases access <;> exact hall
    | function name parameters result body =>
      simp only [lowerDefinition, hdefinition]
      exact lowerFunction_runs h hlower hk hf hr

/-- The members of a definition list are lowered in their order. -/
theorem lowerDefinitions_runs {start : Nat} {inner : NodeId}
    (hs : program.arena.Subtree .definitions start inner) (hle : inner.index ≤ id.index)
    (hr : state.trees.Unset start (inner.index + 1)) :
    (lowerDefinitions program lower inner).Runs Never state fun _ after =>
      (sweep program.arena).done start (inner.index + 1) state after := by
  obtain ⟨kind, hk, ha, _, hf⟩ := Arena.subtree_iff.mp hs
  have hfl := hf.le
  cases kind with
  | definition | expression | type => cases ha
  | definitions members =>
    have hmembers : ((NodeKind.definitions members).places.map Prod.snd) = members := by
      simp [NodeKind.places, Function.comp_def]
    have hrun := (sweep program.arena).runs_forM hf (fun place member hm => by
      obtain ⟨_, _, _, hl⟩ := hf.subtree hm
      obtain ⟨_, _, he⟩ := List.mem_map.mp hm
      obtain rfl : Place.definition = place := (Prod.mk.inj he).1
      exact fun first hsub reached hready => lowerDefinition_runs h
        (fun place below hb hp => hlower place below (by omega) hp) hsub hready)
      ((sweep program.arena).ready_front hfl (Nat.le_succ _) hr)
    rw [hmembers] at hrun
    simp only [lowerDefinitions, hk]
    refine hrun.mono fun _ after hd => (sweep program.arena).trans hfl (Nat.le_succ _) hd ?_
    refine done_skip ((hr.mono hfl (Nat.le_refl _)).behind hd) fun node hi hl => ?_
    obtain rfl : node = inner := NodeId.eq_of_index (by omega)
    simp [TreeRight, hk]

/-- An operation is lowered behind its operands. -/
theorem operation_runs {operator : BinaryOperator} {left right : NodeId}
    (hk : program.arena.kind? id = some (.expression (.binary operator left right)))
    (hf : program.arena.Forest first
      (NodeKind.expression (.binary operator left right)).places id.index)
    (hr : state.trees.Unset first id.index) :
    (expressionCode program lower id (.binary operator left right)).Runs Never state fun _ after =>
      (sweep program.arena).done first id.index state after := by
  let sw := sweep program.arena
  simp only [NodeKind.places, Expression.children, List.map_cons, List.map_nil,
    Arena.forest_cons_iff, Arena.forest_nil_iff] at hf
  obtain ⟨hleft, hright, hend⟩ := hf
  have hll := hleft.le
  have hrl := hright.le
  have hleftKind : ∃ expression, program.arena.kind? left = some (.expression expression) := by
    obtain ⟨kind, hkind, ha, _, _⟩ := Arena.subtree_iff.mp hleft
    cases kind with
    | expression item => exact ⟨item, hkind⟩
    | definitions | definition | type => cases ha
  simp only [expressionCode, Pass.runs_bind]
  refine (hlower .expression left (by omega) (.inl rfl) _ hleft state
    (sw.ready_front (by omega) (by omega) hr)).mono fun leftCode between hb => ?_
  have hbetween := sw.ready_behind (by omega) (by omega) hr hb
  refine (hlower .expression right (by omega) (.inl rfl) _ hright between
    (sw.ready_front (by omega) (by omega) hbetween)).mono fun rightCode reached ha => ?_
  refine (lowerBinary_runs h hk hleftKind).mono fun _ after he => ?_
  subst he
  rw [← hend]
  exact sw.trans (by omega) (by omega) hb ha

/-- The definitions of a where clause are lowered before the expression in front of them. -/
theorem where_runs {inner body : NodeId}
    (hf : program.arena.Forest first
      (NodeKind.expression (.whereClause inner body)).places id.index)
    (hr : state.trees.Unset first id.index) :
    (expressionCode program lower id (.whereClause inner body)).Runs Never state fun _ after =>
      (sweep program.arena).done first id.index state after := by
  simp only [NodeKind.places, Arena.forest_cons_iff, Arena.forest_nil_iff] at hf
  obtain ⟨hbody, hinner, hend⟩ := hf
  have hbl := hbody.le
  have hil := hinner.le
  simp only [expressionCode, Pass.runs_bind]
  refine (lowerDefinitions_runs h hlower hinner (by omega)
    (hr.mono (by omega) (by omega))).mono fun _ listed hl => ?_
  have hready : listed.trees.Unset first (body.index + 1) :=
    (hr.mono (Nat.le_refl _) (by omega)).front hl
  refine (hlower .expression body (by omega) (.inl rfl) _ hbody listed hready).mono
    fun _ after ha => ?_
  rw [← hend]
  exact hl.trans_back (by omega) (by omega) ha

/-- The code of an expression is found. -/
theorem expressionCode_runs {expression : Expression}
    (hk : program.arena.kind? id = some (.expression expression))
    (hregular : (NodeKind.expression expression).isRegular = true)
    (hf : program.arena.Forest first (NodeKind.expression expression).places id.index)
    (hr : state.trees.Unset first id.index) :
    (expressionCode program lower id expression).Runs Never state fun _ after =>
      (sweep program.arena).done first id.index state after := by
  cases expression with
  | call callee arguments => exact lowerCall_runs h hlower hk hf hr
  | conditional condition thenBranch elseBranch => exact lowerConditional_runs hlower hf hr
  | whileLoop condition body => exact lowerWhile_runs hlower hf hr
  | forLoop counter low high step body => exact lowerFor_runs hlower hf hr
  | block expressions => exact lowerBlock_runs hlower hregular hf hr
  | literal value word =>
    have hend : first = id.index := Arena.forest_nil_iff.mp hf
    refine (lowerLiteral_runs hregular).mono fun _ after ha => ?_
    rw [hend]
    change NodeTable.Fills _ _ _ _ _
    rw [ha]
    exact .refl _
  | name word =>
    have hend : first = id.index := Arena.forest_nil_iff.mp hf
    refine (lowerName_runs h hk).mono fun _ after ha => ?_
    rw [hend]
    change NodeTable.Fills _ _ _ _ _
    rw [ha]
    exact .refl _
  | unary operator operand =>
    simp only [NodeKind.places, Expression.children, List.map_cons, List.map_nil,
      Arena.forest_cons_iff, Arena.forest_nil_iff] at hf
    obtain ⟨hoperand, hend⟩ := hf
    simp only [expressionCode, Pass.runs_bind, Pass.runs_pure]
    rw [← hend] at hr ⊢
    exact hlower .expression operand (by omega) (.inl rfl) _ hoperand state hr
  | binary operator left right => exact operation_runs h hlower hk hf hr
  | whereClause inner body => exact where_runs h hlower hf hr

end Node

/-- Every expression is lowered, as long as the bound on the depth is above it. -/
theorem lowerWithin_visits (h : Prepared program) : ∀ (fuel : Nat) (id : NodeId), id.index < fuel →
    ∀ place, place = .expression ∨ place = .counter →
      (sweep program.arena).Visits program.arena Never (lowerWithin program fuel) place id := by
  intro fuel
  induction fuel with
  | zero => intro id hid; omega
  | succ fuel ih =>
    intro id hid place hp start hs state hr
    have hlower : ∀ place below, below.index < id.index → place = .expression ∨ place = .counter →
        (sweep program.arena).Visits program.arena Never (lowerWithin program fuel) place below :=
      fun place below hb hp => ih below (by omega) place hp
    obtain ⟨kind, hk, ha, hregular, hf⟩ := Arena.subtree_iff.mp hs
    have hle := hf.le
    cases kind with
    | definitions | definition | type => rcases hp with rfl | rfl <;> cases ha
    | expression expression =>
      have hexpression : program.arena.expression? id = some expression := by
        simp [Arena.expression?, hk]
      simp only [lowerWithin, lowerExpression, hexpression, Pass.runs_bind]
      refine (expressionCode_runs h hlower hk hregular hf
        (hr.mono (Nat.le_refl _) (Nat.le_succ _))).mono fun code found hd => ?_
      have hnone : found.trees.get? id = none :=
        (hd.outside id (Or.inr (Nat.le_refl _))).trans (hr id hle (Nat.lt_succ_self _))
      refine (record_runs hnone (by simp [TreeRight, hk])).mono fun _ after hrec => ?_
      rw [Pass.runs_pure]
      exact (sweep program.arena).trans hle (Nat.le_succ _) hd hrec

/-- The whole program is lowered under its top-level definitions. -/
theorem lower_root_runs {root : NodeId} {labels : LabelSupply} (h : Prepared program)
    (hs : program.arena.Subtree .definitions 0 root)
    (hsize : root.index + 1 = program.arena.size) :
    (lowerDefinitions program (lower program) root).Runs Never (.initial labels) fun _ after =>
      ∀ id : NodeId, TreeRight program.arena id (after.trees.get? id) := by
  have hdepth := program.arena.size_lt_depthBound
  refine (lowerDefinitions_runs h (fun place below hb hp =>
    lowerWithin_visits h _ below (by omega) place hp) hs (Nat.le_refl _)
      NodeTable.unset_empty).mono fun _ after ha => NodeTable.Fills.everywhere ha fun id hid => ?_
  simp [TreeRight, Arena.kind?_eq_none (hsize ▸ hid)]

/-- Lowering a program that was bound, typed and laid out ends with code for exactly its expressions
and functions. -/
theorem ofProgram_lowered (labels : LabelSupply) (h : Prepared program) :
    ∃ trees chunks, ofProgram program labels = .ok (trees, chunks) ∧
      ∀ id : NodeId, TreeRight program.arena id (trees.get? id) := by
  obtain ⟨root, hroot, hsize, hs⟩ := h.tree
  have hrun : (lowerDefinitions program (lower program) root).Runs Never (.initial labels) _ :=
    lower_root_runs h hs hsize
  obtain ⟨_, after, hok, hright⟩ := hrun.exists_ok
  refine ⟨after.trees, after.chunks, ?_, hright⟩
  simp [ofProgram, hroot, Pass.finalState, hok, Except.map]

end Pins.Lowering
