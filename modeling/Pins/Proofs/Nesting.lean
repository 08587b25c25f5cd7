import Pins.Proofs.FrameSize
import Pins.Proofs.Histories
import Pins.Proofs.Traversal

/-!
# Nesting behind failed visits

Laying out counts the functions around a node, and keeps their frames while they are open. Both are
put back when a visit fails, with one exception: a visit that comes to a function whose frame cannot
be opened stops before the level of the function is left, and so leaves the level one too high
(`Stalls`). It stays too high for all later visits, which then take what is outside all functions
for something inside one (`nesting_kept_iff`).
-/

namespace Pins

/-- The nodes below a node that are visited for it, the body of a function left aside. -/
def NodeKind.visited : NodeKind → List NodeId
  | definitions members => members
  | expression item => item.children
  | _ => []

/-- The definition of a function has a name, parameters, a result type and a body. -/
theorem NodeKind.exists_function {kind : NodeKind} (h : kind.isFunction = true) :
    ∃ name parameters result body,
      kind = .definition (.function name parameters result body) := by
  cases kind with
  | definition item =>
    cases item with
    | function name parameters result body => exact ⟨name, parameters, result, body, rfl⟩
    | var | type | parameter => cases h
  | definitions | expression | type => cases h

/-- What is visited is below. -/
theorem NodeKind.mem_children_of_visited {kind : NodeKind} {below : NodeId}
    (h : below ∈ kind.visited) : below ∈ kind.children := by
  cases kind with
  | definitions | expression => exact h
  | definition | type => cases h

namespace Layout

variable {arena : Arena} {bindings : NodeTable NodeId} {types : NodeTable Ty} {id body : NodeId}
  {state between after : State} {name : String} {parameters : List NodeId} {kind : NodeKind}
  {diagnostic : Diagnostic} {draft : FrameDraft}

/-- The level is kept, and the open frames are but for locals and calls in the innermost one. -/
structure Stays (before after : State) : Prop where
  /-- The level is kept. -/
  level : after.level = before.level
  /-- The open frames are kept. -/
  drafts : Deepens before.drafts after.drafts

instance : IsPreorder State Stays where
  refl _ := ⟨rfl, .refl _⟩
  trans _ _ _ hf hs := ⟨hs.level.trans hf.level, hf.drafts.trans hs.drafts⟩

section Steps

theorem fail_stays {α : Type} {fault : Fault} : Pass.Moves Stays (fail arena id fault : LayOut α) :=
  .throw _

theorem measured_stays {sizeOf? : Ty → Option Nat} :
    Pass.Moves Stays (measured arena types sizeOf? id) := by
  unfold measured
  split
  · exact fail_stays
  · split
    · exact .pure _
    · exact fail_stays

theorem recordAccess_stays {access : Access} :
    Pass.Moves Stays (recordAccess arena id access) := by
  intro state
  rw [recordAccess, Pass.run_get_bind]
  cases state.layout.accesses.store? id access with
  | some accesses => exact ⟨rfl, .refl _⟩
  | none => exact fail_stays state

theorem recordFrame_stays {frame : Frame} :
    Pass.Moves Stays (recordFrame arena id name frame) := by
  intro state
  rw [recordFrame, Pass.run_get_bind]
  cases state.layout.frames.store? id frame with
  | some frames => exact ⟨rfl, .refl _⟩
  | none => exact fail_stays state

theorem placeLocal_stays {size : Nat} : Pass.Moves Stays (placeLocal arena id name size) := by
  intro state
  rw [placeLocal, Pass.run_get_bind]
  cases hdrafts : state.drafts with
  | nil => exact fail_stays state
  | cons draft others =>
    cases hroom : draft.reserveLocal? size with
    | none => simpa only [hroom] using fail_stays state
    | some reserved =>
      have hdeepens : Deepens state.drafts (reserved.2 :: others) := by
        simp only [FrameDraft.reserveLocal?_eq] at hroom
        split at hroom
        · next hfits =>
          cases hroom
          rw [hdrafts]
          exact ⟨rfl, rfl, rfl, rfl, Nat.le_add_right _ _, fun _ => hfits⟩
        · cases hroom
      have hset : Stays state { state with drafts := reserved.2 :: others } := ⟨rfl, hdeepens⟩
      simp only [hroom]
      exact trans_of Stays hset (recordAccess_stays _)

theorem place_stays : Pass.Moves Stays (place arena types id name) := by
  refine measured_stays.bind fun size => Pass.Moves.get.bind fun state => ?_
  split
  · exact recordAccess_stays
  · exact placeLocal_stays

theorem functionLabel_stays : Pass.Moves Stays (functionLabel name) := by
  intro state
  rw [functionLabel, Pass.run_get_bind]
  split <;> exact ⟨rfl, .refl _⟩

theorem layOutParameters_stays :
    Pass.Moves Stays (layOutParameters arena types name draft parameters) := by
  induction parameters generalizing draft with
  | nil => exact .pure _
  | cons parameter others ih =>
    refine measured_stays.bind fun size => ?_
    split
    · exact fail_stays
    · exact Pass.Moves.get.bind fun _ => recordAccess_stays.bind fun _ => ih

theorem openFrame_stays : Pass.Moves Stays (openFrame arena types id name parameters) := by
  refine functionLabel_stays.bind fun label => Pass.Moves.get.bind fun state => ?_
  split
  · exact fail_stays
  · exact layOutParameters_stays

theorem argumentBytes_stays {size : Nat} {arguments : List NodeId} :
    Pass.Moves Stays (argumentBytes arena types id name size arguments) := by
  induction arguments generalizing size with
  | nil => exact .pure _
  | cons argument others ih =>
    refine measured_stays.bind fun bytes => ?_
    dsimp only
    split
    · exact ih
    · exact fail_stays

theorem reserveArguments_stays {size : Nat} : Pass.Moves Stays (reserveArguments size) := by
  refine .modify fun state => ?_
  split
  · exact refl_of Stays state
  · next draft others hdrafts =>
    refine ⟨rfl, ?_⟩
    rw [hdrafts]
    exact ⟨rfl, rfl, rfl, rfl, Nat.le_refl _, id⟩

end Steps

section Node

variable (arena bindings types)

/-- What is done at a node that is no function: the nodes below are visited, and the rest changes
nothing of the nesting. -/
theorem exists_rest (hk : arena.kind? id = some kind) (hf : kind.isFunction = false) :
    ∃ rest : LayOut Unit, Pass.Moves Stays rest ∧ ∀ visit,
      visitNode arena bindings types visit id = kind.visited.forM visit >>= fun _ => rest := by
  cases kind with
  | definitions members =>
    exact ⟨pure (), .pure _, fun visit => by simp [visitNode, hk, NodeKind.visited]⟩
  | type written =>
    exact ⟨pure (), .pure _, fun visit => by simp [visitNode, hk, NodeKind.visited]⟩
  | definition item =>
    cases item with
    | function => cases hf
    | parameter =>
      exact ⟨pure (), .pure _, fun visit => by simp [visitNode, hk, NodeKind.visited]⟩
    | var name | type name =>
      exact ⟨place arena types id name, place_stays, fun visit => by
        simp [visitNode, hk, NodeKind.visited]⟩
  | expression item =>
    cases item with
    | call callee arguments =>
      let link := if bindings.contains id then wordSize else 0
      refine ⟨argumentBytes arena types id callee link arguments >>= reserveArguments,
        argumentBytes_stays.bind fun _ => reserveArguments_stays, fun visit => ?_⟩
      simp only [visitNode, hk, layOutCall, NodeKind.visited, Expression.children, link]
    | binary | block | forLoop | whileLoop | name | conditional | literal | unary | whereClause =>
      exact ⟨pure (), .pure _, fun visit => by simp [visitNode, hk, NodeKind.visited]⟩

/-- A visit finds nothing to do, or lays out a function, or it visits the nodes below and does
nothing else to the nesting. -/
theorem visitNode_cases (id : NodeId) :
    (∃ fault, ∀ visit, visitNode arena bindings types visit id = fail arena id fault) ∨
    (∃ name parameters result body,
      arena.kind? id = some (.definition (.function name parameters result body)) ∧
        ∀ visit, visitNode arena bindings types visit id =
          layOutFunction arena types visit id name parameters body) ∨
    ∃ kind rest, arena.kind? id = some kind ∧ kind.isFunction = false ∧ Pass.Moves Stays rest ∧
      ∀ visit, visitNode arena bindings types visit id =
        kind.visited.forM visit >>= fun _ => rest := by
  cases hk : arena.kind? id with
  | none => exact .inl ⟨_, fun visit => by rw [visitNode, hk]⟩
  | some kind =>
    cases hf : kind.isFunction with
    | true =>
      obtain ⟨name, parameters, result, body, rfl⟩ := kind.exists_function hf
      exact .inr (.inl ⟨name, parameters, result, body, rfl, fun visit => by rw [visitNode, hk]⟩)
    | false =>
      obtain ⟨rest, hrest, he⟩ := exists_rest arena bindings types hk hf
      exact .inr (.inr ⟨kind, rest, rfl, hf, hrest, he⟩)

end Node

/-- The open frames are kept but for locals and calls in the innermost one. -/
def KeepsFrames (before after : State) : Prop := Deepens before.drafts after.drafts

instance : IsPreorder State KeepsFrames where
  refl _ := Deepens.refl _
  trans _ _ _ hf hs := Deepens.trans hf hs

/-- The state at the frame of a function: one level deeper. -/
def State.raised (state : State) : State := { state with level := state.level + 1 }

/-- The state at the body of a function: with its frame as the innermost one. -/
def State.entered (state : State) (draft : FrameDraft) : State :=
  { state with drafts := draft :: state.drafts }

/-- Keeps the frame of a function, if it is there. -/
def recordBuilt (arena : Arena) (id : NodeId) (name : String) : Option FrameDraft → LayOut Unit
  | none => fail arena id (.internalError ("frame of " ++ name ++ " went missing"))
  | some built => recordFrame arena id name built.frame

theorem recordBuilt_stays {built : Option FrameDraft} :
    Pass.Moves Stays (recordBuilt arena id name built) := by
  cases built with
  | none => exact fail_stays
  | some built => exact recordFrame_stays

section Function

variable {visit : NodeId → LayOut Unit}

/-- A function is laid out: its frame is opened, its body is visited, and the frame is closed and
kept. A frame that cannot be opened ends all this, one level too deep. -/
theorem layOutFunction_eq :
    layOutFunction arena types visit id name parameters body state =
      match openFrame arena types id name parameters state.raised with
      | .error diagnostic opened => .error diagnostic opened
      | .ok draft opened =>
        match visit body (opened.entered draft) with
        | .error diagnostic between => .error diagnostic between.closed
        | .ok _ between => recordBuilt arena id name between.drafts.head? between.closed := by
  have hbody : ∀ entered : State, (Pass.leaving State.closed do
      visit body
      return (← get).drafts.head? : LayOut _) entered =
        match visit body entered with
        | .error diagnostic between => .error diagnostic between.closed
        | .ok _ between => .ok between.drafts.head? between.closed := by
    intro entered
    rw [Pass.leaving]
    cases hb : visit body entered with
    | error diagnostic between => rw [Pass.bind_of_error hb]
    | ok value between =>
      rw [Pass.bind_of_ok hb]
      rfl
  change (openFrame arena types id name parameters >>= _) state.raised = _
  cases ho : openFrame arena types id name parameters state.raised with
  | error diagnostic opened => rw [Pass.bind_of_error ho]
  | ok draft opened =>
    rw [Pass.bind_of_ok ho]
    change (Pass.leaving State.closed _ >>= _) (opened.entered draft) = _
    have hclosed := hbody (opened.entered draft)
    dsimp only
    cases hb : visit body (opened.entered draft) with
    | error diagnostic between =>
      rw [hb] at hclosed
      rw [Pass.bind_of_error hclosed]
    | ok value between =>
      rw [hb] at hclosed
      rw [Pass.bind_of_ok hclosed]
      dsimp only
      cases between.drafts.head? <;> rfl

/-- Behind a function the frames around it are the innermost ones again. -/
theorem keepsFrames_closed (ho : Stays state.raised between)
    (hb : KeepsFrames (between.entered draft) after) : KeepsFrames state after.closed := by
  have hopened : Deepens state.drafts between.drafts := ho.drafts
  cases ha : after.drafts with
  | nil => simp [KeepsFrames, State.entered, ha, Deepens] at hb
  | cons innermost others =>
    simp only [KeepsFrames, State.entered, ha, Deepens] at hb
    simpa [KeepsFrames, State.closed, ha, hb.1] using hopened

/-- A function keeps the frames around it when the visit of its body does so. -/
theorem layOutFunction_keepsFrames (hbody : Pass.Moves KeepsFrames (visit body)) :
    Pass.Moves KeepsFrames (layOutFunction arena types visit id name parameters body) := by
  intro state
  have hopens : Stays state.raised
      (Pass.reached (openFrame arena types id name parameters state.raised)) := openFrame_stays _
  rw [layOutFunction_eq]
  cases ho : openFrame arena types id name parameters state.raised with
  | error diagnostic opened =>
    rw [ho] at hopens
    exact hopens.drafts
  | ok draft opened =>
    rw [ho] at hopens
    have hinside := hbody (opened.entered draft)
    dsimp only
    cases hb : visit body (opened.entered draft) with
    | error diagnostic between =>
      rw [hb] at hinside
      exact keepsFrames_closed hopens hinside
    | ok value between =>
      rw [hb] at hinside
      exact trans_of KeepsFrames (keepsFrames_closed hopens hinside) (recordBuilt_stays _).drafts

/-- Visits that end at the level they began at do so one after the other. -/
theorem forM_level {members : List NodeId}
    (h : ∀ member between, (visit member).Runs Pass.Any between fun _ after =>
      after.level = between.level) :
    (members.forM visit).Runs Pass.Any state fun _ after => after.level = state.level :=
  Pass.runs_forM (fun member _ between hb => (h member between).mono fun _ _ ha => ha.trans hb) rfl

/-- A function that does not fail ends at the level it began at when the visit of its body does
so. -/
theorem layOutFunction_level
    (hbody : ∀ entered, (visit body).Runs Pass.Any entered fun _ after =>
      after.level = entered.level) :
    (layOutFunction arena types visit id name parameters body).Runs Pass.Any state
      fun _ after => after.level = state.level := by
  simp only [layOutFunction, Pass.runs_bind, Pass.runs_modify, Pass.runs_leaving, Pass.runs_get,
    Pass.runs_pure]
  refine (openFrame_stays.runs _).mono fun draft opened ho => ?_
  refine (hbody _).mono fun _ between hb => ?_
  have hlevel : between.closed.level = state.level := by
    have hopened := ho.level
    simp only [State.closed] at hopened hb ⊢
    omega
  split
  · exact trivial
  · exact (recordFrame_stays.runs _).mono fun _ after hr => hr.level.trans hlevel

end Function

/-- What is done at a node depends on the visits of the nodes below. -/
theorem visitNode_congr {visit visit' : NodeId → LayOut Unit}
    (hv : ∀ kind, arena.kind? id = some kind →
      ∀ below ∈ kind.children, visit below = visit' below) :
    visitNode arena bindings types visit id = visitNode arena bindings types visit' id := by
  rcases visitNode_cases arena bindings types id with
    ⟨fault, he⟩ | ⟨name, parameters, result, body, hk, he⟩ | ⟨kind, rest, hk, _, _, he⟩
  · rw [he, he]
  · rw [he, he, layOutFunction, layOutFunction, hv _ hk body (by
      simp [NodeKind.children, Definition.children])]
  · rw [he, he, Pass.forM_congr fun below hm =>
      hv kind hk below (NodeKind.mem_children_of_visited hm)]

/-- Any bound above the number of a node is deep enough for its visit. -/
theorem visitWithin_eq (ht : arena.IsTree) {fuel more : Nat} (hf : id.index < fuel)
    (hm : id.index < more) :
    visitWithin arena bindings types fuel id = visitWithin arena bindings types more id := by
  induction fuel generalizing id more with
  | zero => omega
  | succ fuel ih =>
    cases more with
    | zero => omega
    | succ more =>
      refine visitNode_congr fun kind hk below hb => ?_
      have hlt := ht.index_lt hk hb
      exact ih (by omega) (by omega)

/-- Visiting a node visits the nodes below it. -/
theorem visit_eq (ht : arena.IsTree) (id : NodeId) :
    visit arena bindings types id =
      visitNode arena bindings types (visit arena bindings types) id := by
  have hdepth := arena.size_lt_depthBound
  obtain ⟨fuel, hfuel⟩ : ∃ less, arena.depthBound = less + 1 := ⟨arena.depthBound - 1, by omega⟩
  have hid : visit arena bindings types id =
      visitNode arena bindings types (visitWithin arena bindings types fuel) id := by
    rw [visit, hfuel, visitWithin]
  rw [hid]
  refine visitNode_congr fun kind hk below hb => ?_
  have hsize := Arena.index_lt_size hk
  have hlt := ht.index_lt hk hb
  exact visitWithin_eq ht (by omega) (by omega)

/-- A visit keeps the open frames, whether it fails or not. -/
theorem visitWithin_keepsFrames (fuel : Nat) (id : NodeId) :
    Pass.Moves KeepsFrames (visitWithin arena bindings types fuel id) := by
  induction fuel generalizing id with
  | zero => exact .throw _
  | succ fuel ih =>
    rw [visitWithin]
    rcases visitNode_cases arena bindings types id with
      ⟨fault, he⟩ | ⟨name, parameters, result, body, _, he⟩ | ⟨kind, rest, _, _, hrest, he⟩
    · rw [he]
      exact .throw _
    · rw [he]
      exact layOutFunction_keepsFrames (ih body)
    · rw [he]
      exact (Pass.Moves.forM fun below _ => ih below).bind fun _ =>
        hrest.mono fun _ _ hs => hs.drafts

/-- A visit that does not fail ends at the level it began at. -/
theorem visitWithin_level (fuel : Nat) (id : NodeId) (state : State) :
    (visitWithin arena bindings types fuel id).Runs Pass.Any state
      fun _ after => after.level = state.level := by
  induction fuel generalizing id state with
  | zero => exact trivial
  | succ fuel ih =>
    rw [visitWithin]
    rcases visitNode_cases arena bindings types id with
      ⟨fault, he⟩ | ⟨name, parameters, result, body, _, he⟩ | ⟨kind, rest, _, _, hrest, he⟩
    · rw [he]
      exact trivial
    · rw [he]
      exact layOutFunction_level (ih body)
    · rw [he, Pass.runs_bind]
      exact (forM_level ih).mono fun _ between hb =>
        (hrest.runs between).mono fun _ after hr => hr.level.trans hb

/-- The visit of a node in a state comes to a function whose frame cannot be opened. -/
inductive Stalls (arena : Arena) (bindings : NodeTable NodeId) (types : NodeTable Ty) :
    NodeId → State → Prop where
  /-- The node is such a function. -/
  | frame {id result body : NodeId} {name : String} {parameters : List NodeId}
      {state opened : State} {diagnostic : Diagnostic}
      (hk : arena.kind? id = some (.definition (.function name parameters result body)))
      (ho : openFrame arena types id name parameters state.raised = .error diagnostic opened) :
      Stalls arena bindings types id state
  /-- The node is a function, and the visit of its body comes to one. -/
  | body {id result body : NodeId} {name : String} {parameters : List NodeId}
      {state opened : State} {draft : FrameDraft}
      (hk : arena.kind? id = some (.definition (.function name parameters result body)))
      (ho : openFrame arena types id name parameters state.raised = .ok draft opened)
      (h : Stalls arena bindings types body (opened.entered draft)) :
      Stalls arena bindings types id state
  /-- The node is no function, and the visit of a node below it comes to one. -/
  | child {id child : NodeId} {kind : NodeKind} {front back : List NodeId}
      {state between : State} (hk : arena.kind? id = some kind) (hf : kind.isFunction = false)
      (hv : kind.visited = front ++ child :: back)
      (hr : front.forM (visit arena bindings types) state = .ok ⟨⟩ between)
      (h : Stalls arena bindings types child between) : Stalls arena bindings types id state

/-- The frame of a function is opened one level deeper, whether that fails or not. -/
theorem openFrame_level : (Pass.reached
    (openFrame arena types id name parameters state.raised)).level = state.level + 1 :=
  (openFrame_stays state.raised).level

/-- What the opening of the frame of a function stops with. -/
def ShutWith (arena : Arena) (types : NodeTable Ty) (diagnostic : Diagnostic) : Prop :=
  ∃ id name parameters result body, ∃ state opened : State,
    arena.kind? id = some (.definition (.function name parameters result body)) ∧
      openFrame arena types id name parameters state = .error diagnostic opened

/-- A visit that comes to a function whose frame cannot be opened fails for that, one level too
deep. -/
theorem Stalls.exists_error (ht : arena.IsTree) (h : Stalls arena bindings types id state) :
    ∃ diagnostic after, visit arena bindings types id state = .error diagnostic after ∧
      after.level = state.level + 1 ∧ ShutWith arena types diagnostic := by
  induction h with
  | @frame id result body name parameters state opened diagnostic hk ho =>
    refine ⟨diagnostic, opened, ?_, ?_, _, _, _, _, _, _, _, hk, ho⟩
    · rw [visit_eq ht id]
      simp only [visitNode, hk, layOutFunction_eq, ho]
    · rw [← openFrame_level, ho, Pass.reached_error]
  | @body id result body name parameters state opened draft hk ho _ ih =>
    obtain ⟨diagnostic, between, hbody, hlevel, hshut⟩ := ih
    refine ⟨diagnostic, between.closed, ?_, ?_, hshut⟩
    · rw [visit_eq ht id]
      simp only [visitNode, hk, layOutFunction_eq, ho, hbody]
    · have hopened : opened.level = state.level + 1 := by
        rw [← openFrame_level, ho, Pass.reached_ok]
      simp only [State.closed, State.entered] at hlevel ⊢
      omega
  | @child id child kind front back state between hk hf hv hr _ ih =>
    obtain ⟨diagnostic, after, hchild, hlevel, hshut⟩ := ih
    obtain ⟨rest, _, he⟩ := exists_rest arena bindings types hk hf
    have hfront : between.level = state.level := (forM_level (visitWithin_level _)).of_ok hr
    refine ⟨diagnostic, after, ?_, by omega, hshut⟩
    rw [visit_eq ht id, he, hv]
    refine Pass.bind_of_error ?_ _
    simp only [List.forM_eq_forM, List.forM_append, List.forM_cons] at hr ⊢
    rw [Pass.bind_of_ok hr, Pass.bind_of_error hchild]

/-- Visits one after the other keep the level unless one of them comes to a function whose frame
cannot be opened. -/
theorem forM_level_or_stalls {members : List NodeId}
    (h : ∀ member ∈ members, ∀ state,
      (Pass.reached (visit arena bindings types member state)).level = state.level ∨
        Stalls arena bindings types member state) (state : State) :
    (Pass.reached (members.forM (visit arena bindings types) state)).level = state.level ∨
      ∃ front child back between, members = front ++ child :: back ∧
        front.forM (visit arena bindings types) state = .ok ⟨⟩ between ∧
        Stalls arena bindings types child between := by
  induction members generalizing state with
  | nil => exact .inl rfl
  | cons member others ih =>
    have hfirst := h member List.mem_cons_self state
    simp only [List.forM_eq_forM, List.forM_cons] at ih ⊢
    cases hm : visit arena bindings types member state with
    | error diagnostic after =>
      rw [hm] at hfirst
      rw [Pass.bind_of_error hm]
      exact hfirst.imp_right fun hs => ⟨[], member, others, state, rfl, rfl, hs⟩
    | ok value between =>
      have hlevel : between.level = state.level := (visitWithin_level _ member state).of_ok hm
      rw [Pass.bind_of_ok hm, ← hlevel]
      refine (ih (fun other ho => h other (List.mem_cons_of_mem _ ho)) between).imp_right ?_
      rintro ⟨front, child, back, reached, rfl, hr, hs⟩
      refine ⟨member :: front, child, back, reached, rfl, ?_, hs⟩
      rw [List.forM_cons, Pass.bind_of_ok hm, hr]

/-- A function keeps the level unless its frame cannot be opened or the visit of its body comes to
one whose frame cannot be. -/
theorem function_level_or_stalls {result : NodeId}
    (hk : arena.kind? id = some (.definition (.function name parameters result body)))
    (hbody : ∀ entered, (Pass.reached (visit arena bindings types body entered)).level =
      entered.level ∨ Stalls arena bindings types body entered) :
    (Pass.reached (layOutFunction arena types (visit arena bindings types) id name parameters body
      state)).level = state.level ∨ Stalls arena bindings types id state := by
  rw [layOutFunction_eq]
  cases ho : openFrame arena types id name parameters state.raised with
  | error diagnostic opened => exact .inr (.frame hk ho)
  | ok draft opened =>
    have hopened : opened.level = state.level + 1 := by
      rw [← openFrame_level, ho, Pass.reached_ok]
    refine (hbody (opened.entered draft)).imp (fun hl => ?_) (.body hk ho)
    have hclosed : (Pass.reached (visit arena bindings types body
        (opened.entered draft))).closed.level = state.level := by
      simp only [State.closed, State.entered] at hl ⊢
      omega
    dsimp only
    cases hb : visit arena bindings types body (opened.entered draft) with
    | error diagnostic between => rwa [hb] at hclosed
    | ok value between =>
      rw [hb] at hclosed
      exact (recordBuilt_stays _).level.trans hclosed

/-- A visit keeps the level unless it comes to a function whose frame cannot be opened. -/
theorem level_or_stalls (ht : arena.IsTree) (id : NodeId) (state : State) :
    (Pass.reached (visit arena bindings types id state)).level = state.level ∨
      Stalls arena bindings types id state := by
  induction hn : id.index using Nat.strongRecOn generalizing id state with
  | ind number ih =>
    have hbelow : ∀ kind, arena.kind? id = some kind → ∀ below ∈ kind.children, ∀ state,
        (Pass.reached (visit arena bindings types below state)).level = state.level ∨
          Stalls arena bindings types below state := fun kind hk below hb state =>
      ih below.index (hn ▸ ht.index_lt hk hb) below state rfl
    rw [visit_eq ht id]
    rcases visitNode_cases arena bindings types id with
      ⟨fault, he⟩ | ⟨name, parameters, result, body, hk, he⟩ | ⟨kind, rest, hk, hf, hrest, he⟩
    · rw [he]
      exact .inl rfl
    · rw [he]
      exact function_level_or_stalls hk
        (hbelow _ hk body (by simp [NodeKind.children, Definition.children]))
    · rw [he, Pass.reached_bind]
      have hvisited := forM_level_or_stalls (fun below hb =>
        hbelow kind hk below (NodeKind.mem_children_of_visited hb)) state
      rcases hvisited with hlevel | ⟨front, child, back, between, hv, hr, hs⟩
      · refine .inl ?_
        cases hm : kind.visited.forM (visit arena bindings types) state with
        | error diagnostic after => rwa [hm] at hlevel
        | ok value between =>
          rw [hm] at hlevel
          exact (hrest between).level.trans hlevel
      · exact .inr (.child hk hf hv hr hs)

/-- A visit comes to a function whose frame cannot be opened exactly if it does not keep the
level. -/
theorem level_eq_iff (ht : arena.IsTree) :
    (Pass.reached (visit arena bindings types id state)).level = state.level ↔
      ¬ Stalls arena bindings types id state := by
  constructor
  · intro hl hs
    obtain ⟨diagnostic, after, he, hraised, _⟩ := hs.exists_error ht
    rw [he, Pass.reached_error] at hl
    omega
  · exact (level_or_stalls ht id state).resolve_right

/-- No visit leaves the level lower than it was. -/
theorem le_level (ht : arena.IsTree) (id : NodeId) (state : State) :
    state.level ≤ (Pass.reached (visit arena bindings types id state)).level := by
  rcases level_or_stalls ht id state with hl | hs
  · exact Nat.le_of_eq hl.symm
  · obtain ⟨diagnostic, after, he, hraised, _⟩ := hs.exists_error ht
    rw [he, Pass.reached_error]
    omega

/-- What bars the frame of a function from being opened: the frame is too large, or a parameter has
an access already. -/
def Bars (arena : Arena) (diagnostic : Diagnostic) : Prop :=
  (∃ name, diagnostic.fault = .frameTooLarge name) ∨
    ∃ parameter name written,
      arena.kind? parameter = some (.definition (.parameter name written)) ∧
        diagnostic = ⟨.internalError (parameter.text ++ " already has an access"),
          arena.position parameter⟩

/-- Parameters stop the opening of a frame only when they do not fit or have an access already. -/
theorem layOutParameters_bars
    (hm : ∀ parameter ∈ parameters, Measured types Ty.argumentSize? parameter ∧
      ∃ name written, arena.kind? parameter = some (.definition (.parameter name written))) :
    (layOutParameters arena types name draft parameters).Runs (Bars arena) state
      fun _ _ => True := by
  induction parameters generalizing draft state with
  | nil => exact trivial
  | cons parameter others ih =>
    obtain ⟨⟨type, htype, hsized⟩, found, written, hk⟩ := hm parameter List.mem_cons_self
    obtain ⟨size, hsize⟩ := Option.isSome_iff_exists.mp hsized
    simp only [layOutParameters, measured, htype, hsize, Pass.runs_bind, Pass.runs_pure]
    split
    · exact .inl ⟨_, rfl⟩
    · simp only [recordAccess, Pass.runs_bind, Pass.runs_get]
      cases state.layout.accesses.store? parameter _ with
      | none => exact .inr ⟨parameter, found, written, hk, rfl⟩
      | some accesses => exact ih fun other ho => hm other (List.mem_cons_of_mem _ ho)

/-- A frame that cannot be opened is barred. -/
theorem ShutWith.bars (ht : arena.IsTree) (hsized : Sized arena types)
    (h : ShutWith arena types diagnostic) : Bars arena diagnostic := by
  obtain ⟨id, name, parameters, result, body, state, opened, hk, ho⟩ := h
  have hm : ∀ parameter ∈ parameters, Measured types Ty.argumentSize? parameter ∧
      ∃ name written, arena.kind? parameter = some (.definition (.parameter name written)) := by
    intro parameter hp
    have hplace : (Place.parameter, parameter) ∈
        (NodeKind.definition (.function name parameters result body)).places := by
      simp [NodeKind.places, hp]
    obtain ⟨_, _, hs⟩ := ht.exists_subtree hk
    obtain ⟨_, hsub, _⟩ := hs.child hk hplace
    obtain ⟨found, written, hd, _⟩ := hsub.parameter
    have hkind := Arena.kind?_of_definition? hd
    exact ⟨(hsized.storage (Arena.index_lt_size hkind) hkind rfl).argument, found, written, hkind⟩
  have hruns : (openFrame arena types id name parameters).Runs (Bars arena) state
      fun _ _ => True := by
    have hlabel : (functionLabel name).Runs (Bars arena) state fun _ _ => True := by
      simp only [functionLabel, Pass.runs_bind, Pass.runs_get]
      split <;> trivial
    simp only [openFrame, Pass.runs_bind]
    refine hlabel.mono fun label between _ => ?_
    simp only [Pass.runs_get]
    split
    · exact .inl ⟨name, rfl⟩
    · exact layOutParameters_bars hm
  exact hruns.of_error ho

/-- The state behind visits one after the other, whether they fail or not. -/
def behind (arena : Arena) (bindings : NodeTable NodeId) (types : NodeTable Ty)
    (labels : LabelSupply) (earlier : List NodeId) : State :=
  Pass.reachedAll (visit arena bindings types) earlier (.initial labels)

section Histories

variable {labels : LabelSupply} {earlier : List NodeId}

/-- No frame is open between visits. -/
theorem drafts_behind : (behind arena bindings types labels earlier).drafts = [] := by
  have hkeeps : KeepsFrames (.initial labels) (behind arena bindings types labels earlier) :=
    Pass.Moves.reachedAll (fun id => visitWithin_keepsFrames _ id) earlier (.initial labels)
  cases hd : (behind arena bindings types labels earlier).drafts with
  | nil => rfl
  | cons => simp [KeepsFrames, State.initial, hd, Deepens] at hkeeps

/-- The level is that of the outside as long as no visit comes to a function whose frame cannot be
opened. -/
theorem level_behind_eq_zero_iff (ht : arena.IsTree) :
    (behind arena bindings types labels earlier).level = 0 ↔
      ∀ front visited back, earlier = front ++ visited :: back →
        ¬ Stalls arena bindings types visited (behind arena bindings types labels front) := by
  constructor
  · rintro hl front visited back rfl hs
    obtain ⟨diagnostic, after, he, hraised, _⟩ := hs.exists_error ht
    have hkept : 0 < (Pass.reachedAll (visit arena bindings types) back after).level :=
      Pass.reachedAll_kept (fun state => 0 < state.level)
        (fun member between hb => Nat.lt_of_lt_of_le hb (le_level ht member between)) (by omega)
    rw [behind] at he
    rw [behind, Pass.reachedAll_append, Pass.reachedAll_cons, he, Pass.reached_error] at hl
    omega
  · intro h
    by_contra hn
    obtain ⟨front, visited, back, he, hbefore, hafter⟩ :=
      Pass.exists_turn (fun state : State => state.level ≠ 0) hn (fun hf => hf rfl)
    have hlevel := (level_eq_iff ht).mpr (h front visited back he)
    rw [not_not] at hbefore
    rw [behind, hbefore] at hlevel
    exact hafter hlevel

end Histories

/-- A variable is kept under its name outside all functions, and else in the innermost frame. -/
theorem exists_visit_var (bindings : NodeTable NodeId) (ht : arena.IsTree)
    (hsized : Sized arena types) {written : NodeId}
    (hk : arena.kind? id = some (.definition (.var name written))) :
    ∃ size, ∀ state : State, visit arena bindings types id state =
      if state.level = 0 then recordAccess arena id (.global size (.named name)) state
      else placeLocal arena id name size state := by
  obtain ⟨type, htype, hmeasured⟩ := hsized.storage (Arena.index_lt_size hk) hk rfl
  obtain ⟨size, hsize⟩ := Option.isSome_iff_exists.mp hmeasured
  refine ⟨size, fun state => ?_⟩
  rw [visit_eq ht id]
  simp only [visitNode, hk, place, measured, htype, hsize]
  rw [pure_bind, Pass.run_get_bind]
  split <;> rfl

/-- A variable that has no access yet gets one under its name exactly if the level is that of the
outside, as no frame is open between visits. -/
theorem visit_var_iff (ht : arena.IsTree) (hsized : Sized arena types) {written : NodeId}
    (hk : arena.kind? id = some (.definition (.var name written)))
    (ha : state.layout.accesses.get? id = none) (hd : state.drafts = []) :
    state.level = 0 ↔ ∃ size after, visit arena bindings types id state = .ok ⟨⟩ after ∧
      after.layout.accesses.get? id = some (.global size (.named name)) := by
  obtain ⟨size, hvisit⟩ := exists_visit_var bindings ht hsized hk
  constructor
  · intro hl
    obtain ⟨accesses, hs⟩ := NodeTable.exists_store? (Access.global size (.named name)) ha
    refine ⟨size, { state with layout := { state.layout with accesses } }, ?_, ?_⟩
    · rw [hvisit, if_pos hl, recordAccess, Pass.run_get_bind, hs]
      rfl
    · simp [NodeTable.get?_store? hs]
  · rintro ⟨_, after, hr, _⟩
    by_contra hl
    rw [hvisit, if_neg hl, placeLocal, Pass.run_get_bind, hd] at hr
    cases hr

/-- Room for a parameter changes neither the label nor the level of a frame. -/
theorem reserveParameter?_frame {size : Nat} {reserved : Int × FrameDraft}
    (h : draft.reserveParameter? size = some reserved) :
    reserved.2.frame.label = draft.frame.label ∧ reserved.2.frame.level = draft.frame.level := by
  simp only [FrameDraft.reserveParameter?_eq] at h
  split at h
  · cases h
    exact ⟨rfl, rfl⟩
  · cases h

/-- Parameters change neither the label nor the level of a frame. -/
theorem layOutParameters_frame :
    (layOutParameters arena types name draft parameters).Runs Pass.Any state fun larger _ =>
      larger.frame.label = draft.frame.label ∧ larger.frame.level = draft.frame.level := by
  induction parameters generalizing draft state with
  | nil => exact ⟨rfl, rfl⟩
  | cons parameter others ih =>
    simp only [layOutParameters, Pass.runs_bind]
    refine (measured_stays.runs state).mono fun size between _ => ?_
    split
    · exact trivial
    · next offset larger hroom =>
      have hsame := reserveParameter?_frame hroom
      simp only [Pass.runs_bind, Pass.runs_get]
      refine (recordAccess_stays.runs between).mono fun _ stored _ => ?_
      exact ih.mono fun _ _ hr => ⟨hr.1.trans hsame.1, hr.2.trans hsame.2⟩

/-- The frame of a function is of its level, and labelled with its name at the first one. -/
theorem openFrame_frame :
    (openFrame arena types id name parameters).Runs Pass.Any state fun draft _ =>
      draft.frame.level = state.level ∧ (state.level = 1 → draft.frame.label = .named name) := by
  have hlabel : (functionLabel name).Runs Pass.Any state fun label between =>
      between.level = state.level ∧ (state.level = 1 → label = .named name) := by
    simp only [functionLabel, Pass.runs_bind, Pass.runs_get]
    split
    · exact ⟨rfl, fun _ => rfl⟩
    · next hl => exact ⟨rfl, fun hf => absurd hf hl⟩
  simp only [openFrame, Pass.runs_bind]
  refine hlabel.mono fun label between hb => ?_
  simp only [Pass.runs_get]
  split
  · exact trivial
  · next offset draft hroom =>
    have hstart : draft.frame.label = label ∧ draft.frame.level = between.level :=
      reserveParameter?_frame hroom
    refine layOutParameters_frame.mono fun larger _ hl => ?_
    exact ⟨hl.2.trans (hstart.2.trans hb.1), fun h => hl.1.trans (hstart.1.trans (hb.2 h))⟩

/-- A visit of a function that does not fail keeps its frame: one level deeper than the state, and
labelled with the name of the function outside all others. -/
theorem frame_of_visit (ht : arena.IsTree) {result : NodeId}
    (hk : arena.kind? id = some (.definition (.function name parameters result body)))
    (hr : visit arena bindings types id state = .ok ⟨⟩ after) :
    ∃ frame, after.layout.frames.get? id = some frame ∧ frame.level = state.level + 1 ∧
      (state.level = 0 → frame.label = .named name) := by
  rw [visit_eq ht id] at hr
  simp only [visitNode, hk, layOutFunction_eq] at hr
  cases ho : openFrame arena types id name parameters state.raised with
  | error diagnostic opened =>
    rw [ho] at hr
    cases hr
  | ok draft opened =>
    obtain ⟨hlevel, hlabel⟩ := openFrame_frame.of_ok ho
    have hkept : KeepsFrames (opened.entered draft)
        (Pass.reached (visit arena bindings types body (opened.entered draft))) :=
      visitWithin_keepsFrames _ body _
    rw [ho] at hr
    dsimp only at hr
    cases hb : visit arena bindings types body (opened.entered draft) with
    | error diagnostic between =>
      rw [hb] at hr
      cases hr
    | ok value between =>
      rw [hb] at hr hkept
      dsimp only at hr
      cases hd : between.drafts with
      | nil => simp [KeepsFrames, State.entered, hd, Deepens] at hkept
      | cons built others =>
        simp only [KeepsFrames, State.entered, Pass.reached_ok, hd, Deepens] at hkept
        obtain ⟨_, hl, hv, _⟩ := hkept
        rw [hd, List.head?_cons, recordBuilt, recordFrame, Pass.run_get_bind] at hr
        cases hs : between.closed.layout.frames.store? id built.frame with
        | none =>
          rw [hs] at hr
          cases hr
        | some frames =>
          rw [hs] at hr
          cases hr
          refine ⟨built.frame, by simp [NodeTable.get?_store? hs], hv.trans hlevel, fun hz => ?_⟩
          exact hl.trans (hlabel (by simp [State.raised, hz]))

/-- The first visit of a function outside all others ends with a value, unless a frame is too
large. -/
theorem visit_first_runs (ht : arena.IsTree) (hsized : Sized arena types) {root : NodeId}
    {members : List NodeId} (hroot : arena.root = some root)
    (hk : arena.kind? root = some (.definitions members)) (hm : id ∈ members)
    (hfresh : ∀ node ∈ arena.traversal id,
      state.layout.accesses.get? node = none ∧ state.layout.frames.get? node = none)
    (hd : state.drafts = []) (hl : state.level = 0) :
    (visit arena bindings types id).Runs (Pass.Reports Refuses) state fun _ _ => True := by
  have hencloses : arena.Encloses none id := (Arena.Encloses.root hroot).ofOther hk rfl hm
  have hplace : (Place.definition, id) ∈ (NodeKind.definitions members).places :=
    List.mem_map.mpr ⟨id, hm, rfl⟩
  obtain ⟨_, _, hs⟩ := ht.exists_subtree hk
  obtain ⟨first, hsub, _, hlt⟩ := hs.child hk hplace
  have hsize := Arena.index_lt_size hk
  have hdepth := arena.size_lt_depthBound
  have hin : ∀ node : NodeId, first ≤ node.index → node.index < id.index + 1 →
      node ∈ arena.traversal id := fun node hf hn =>
    (hsub.traversal_perm ht).mem_iff.mpr (Arena.mem_interval_iff.mpr ⟨hf, hn⟩)
  have hready : Ready arena none first (id.index + 1) state :=
    ⟨by simp [hd, hl], hl ▸ .outside, by simp [Addressable, hd],
      fun node hf hn => (hfresh node (hin node hf hn)).1,
      fun node hf hn => (hfresh node (hin node hf hn)).2⟩
  exact (visitWithin_visits ht hsized _ id (by omega) (by omega) .definition none rfl hencloses
    first hsub state hready).mono fun _ _ _ => trivial

/-- How the visit of a node is nested when it is made between visits: in a state with a level and
without open frames. -/
structure Nests (arena : Arena) (bindings : NodeTable NodeId) (types : NodeTable Ty) (id : NodeId)
    (state : State) : Prop where
  /-- No frame is open behind the visit, whether it fails or not. -/
  drafts : (Pass.reached (visit arena bindings types id state)).drafts = []
  /-- The level is kept, unless the visit comes to a function whose frame cannot be opened. -/
  level : (Pass.reached (visit arena bindings types id state)).level = state.level ↔
    ¬ Stalls arena bindings types id state
  /-- A visit that does so fails for what bars the frame, one level too deep. -/
  stalled : Stalls arena bindings types id state → ∃ diagnostic after,
    visit arena bindings types id state = .error diagnostic after ∧
      after.level = state.level + 1 ∧ Bars arena diagnostic
  /-- A variable that has no access yet gets one under its name if no level is left over, and only
  then. -/
  var : ∀ name written, arena.kind? id = some (.definition (.var name written)) →
    state.layout.accesses.get? id = none →
    (state.level = 0 ↔ ∃ size after, visit arena bindings types id state = .ok ⟨⟩ after ∧
      after.layout.accesses.get? id = some (.global size (.named name)))
  /-- A function that is laid out is one level deeper than the state, and labelled with its name if
  no level is left over. -/
  function : ∀ name parameters result body,
    arena.kind? id = some (.definition (.function name parameters result body)) →
    ∀ after, visit arena bindings types id state = .ok ⟨⟩ after →
      ∃ frame, after.layout.frames.get? id = some frame ∧ frame.level = state.level + 1 ∧
        (state.level = 0 → frame.label = .named name)
  /-- A function outside all others is laid out when nothing in it has been so far and no level is
  left over, unless a frame is too large. -/
  first : ∀ root members, arena.root = some root →
    arena.kind? root = some (.definitions members) → id ∈ members →
    (∀ node ∈ arena.traversal id,
      state.layout.accesses.get? node = none ∧ state.layout.frames.get? node = none) →
    state.level = 0 →
    (∃ after, visit arena bindings types id state = .ok ⟨⟩ after) ∨
      ∃ diagnostic after name, visit arena bindings types id state = .error diagnostic after ∧
        diagnostic.fault = .frameTooLarge name

/-- Visits that are made one after the other, whether they fail or not, leave no frame open. The
level is that of the outside again exactly if none of them came to a function whose frame could not
be opened, and then the next visit finds what it would find at first. -/
theorem nesting_kept_iff {file : String} {tokens : List Token} (hp : parse file tokens = .ok arena)
    (hb : Binding.ofArena arena = .ok bindings) (hty : Typing.ofArena arena bindings = .ok types)
    (labels : LabelSupply) (earlier : List NodeId) :
    (behind arena bindings types labels earlier).drafts = [] ∧
      ((behind arena bindings types labels earlier).level = 0 ↔
        ∀ front visited back, earlier = front ++ visited :: back →
          ¬ Stalls arena bindings types visited (behind arena bindings types labels front)) ∧
      ∀ id, Nests arena bindings types id (behind arena bindings types labels earlier) := by
  have htree := parse_isTree hp
  have hsized := (Typing.ofArena_typed htree (Binding.ofArena_bound htree hb) hty).sized htree
  refine ⟨drafts_behind, level_behind_eq_zero_iff htree, fun id => ?_⟩
  have hdrafts : (behind arena bindings types labels earlier).drafts = [] := drafts_behind
  have hnext : (behind arena bindings types labels (earlier ++ [id])).drafts = [] := drafts_behind
  rw [behind, Pass.reachedAll_append] at hnext
  exact
    { drafts := hnext
      level := level_eq_iff htree
      stalled := fun hs => by
        obtain ⟨diagnostic, after, he, hraised, hshut⟩ := hs.exists_error htree
        exact ⟨diagnostic, after, he, hraised, hshut.bars htree hsized⟩
      var := fun name written hk ha => visit_var_iff htree hsized hk ha hdrafts
      function := fun name parameters result body hk after hr => frame_of_visit htree hk hr
      first := fun root members hroot hk hm hfresh hl => by
        have hrun : (visit arena bindings types id).Runs (Pass.Reports Refuses)
            (behind arena bindings types labels earlier) fun _ _ => True :=
          visit_first_runs htree hsized hroot hk hm hfresh hdrafts hl
        cases hr : visit arena bindings types id (behind arena bindings types labels earlier) with
        | ok value after => exact .inl ⟨after, rfl⟩
        | error diagnostic after =>
          obtain ⟨name, hfault⟩ := (hrun.of_error hr).exists_name
          exact .inr ⟨diagnostic, after, name, rfl, hfault⟩ }

/-- A visit of a variable that has an access already fails, and the first visit of a function behind
it finds the frame of a function outside all others. -/
theorem nesting_kept_of_second_visit : ∃ tokens arena bindings types after frame,
    tokenize "test" "fun f(x: integer): integer = x; var v: integer" = .ok tokens ∧
      parse "test" tokens = .ok arena ∧ Binding.ofArena arena = .ok bindings ∧
      Typing.ofArena arena bindings = .ok types ∧
      visit arena bindings types ⟨4⟩ (behind arena bindings types .full [⟨6⟩, ⟨6⟩]) =
        .ok ⟨⟩ after ∧
      after.layout.frames.get? ⟨4⟩ = some frame ∧ frame.level = 1 ∧ frame.label = .named "f" := by
  obtain ⟨compiled, hc, hk, hlevel, hvisit⟩ : ∃ compiled, Compilation.ofSource "test"
      "fun f(x: integer): integer = x; var v: integer" = .ok compiled ∧
      compiled.program.arena.kind? ⟨4⟩ =
        some (.definition (.function "f" [⟨1⟩] ⟨2⟩ ⟨3⟩)) ∧
      (behind compiled.program.arena compiled.program.bindings compiled.program.types .full
        [⟨6⟩, ⟨6⟩]).level = 0 ∧
      (Pass.finalState (visit compiled.program.arena compiled.program.bindings
        compiled.program.types ⟨4⟩) (behind compiled.program.arena compiled.program.bindings
          compiled.program.types .full [⟨6⟩, ⟨6⟩])).toBool = true :=
    Compilation.exists_of_any (by decide +kernel)
  obtain ⟨tokens, arena, hs, hp, ha⟩ := Compilation.ofSource_eq_ok hc
  obtain ⟨bindings, types, layout, left, hb, hty, _, _, he⟩ := Compilation.ofArena_eq_ok ha
  rw [he] at hk hlevel hvisit
  have hnests := (nesting_kept_iff hp hb hty .full [⟨6⟩, ⟨6⟩]).2.2 ⟨4⟩
  rw [Pass.finalState] at hvisit
  cases hr : visit arena bindings types ⟨4⟩ (behind arena bindings types .full [⟨6⟩, ⟨6⟩]) with
  | error diagnostic after => simp [hr, Except.toBool] at hvisit
  | ok value after =>
    obtain ⟨frame, hf, hl, hn⟩ := hnests.function _ _ _ _ hk after hr
    rw [hlevel] at hl
    exact ⟨tokens, arena, bindings, types, after, frame, hs, hp, hb, hty, hr, hf, hl, hn hlevel⟩

/-- The second visit of a function with a parameter fails one level too deep, and the first visit of
a variable behind it takes the variable for a local one. -/
theorem level_left_over_by_second_visit : ∃ compiled,
    Compilation.ofSource "test" "fun f(x: integer): integer = x; var v: integer" = .ok compiled ∧
      compiled.program.arena.kind? ⟨6⟩ = some (.definition (.var "v" ⟨5⟩)) ∧
      (behind compiled.program.arena compiled.program.bindings compiled.program.types .full
        [⟨4⟩]).level = 0 ∧
      (behind compiled.program.arena compiled.program.bindings compiled.program.types .full
        [⟨4⟩, ⟨4⟩]).level = 1 ∧
      (Pass.finalState (visit compiled.program.arena compiled.program.bindings
          compiled.program.types ⟨6⟩)
        (behind compiled.program.arena compiled.program.bindings compiled.program.types .full
          [⟨4⟩, ⟨4⟩])).map (fun _ => ()) =
        .error ⟨.internalError "local storage outside a function",
          compiled.program.arena.position ⟨6⟩⟩ :=
  Compilation.exists_of_any (by decide +kernel)

end Layout

end Pins
