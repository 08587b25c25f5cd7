import Pins.Proofs.ExactLayout
import Pins.Proofs.Operands

/-!
# The size of frames

Below its locals and two words of bookkeeping, a frame has room for the largest list of arguments
that its function hands over in a call (`ofArena_outgoing`). A local is refused if it would leave
the two words without an address, whatever the calls of its function hand over, and the room for
these is not counted together with the locals. So a frame is as large as the sum says and can be
addressed exactly if this sum can (`Compilation.frames_fit_iff`).

A visit raises the room of the innermost open frame to a peak, and the peak of two visits is the
larger one of theirs (`Reserves.trans`).
-/

namespace Pins

/-- The expressions that are computed with the body of a function. -/
def Arena.ownOf (arena : Arena) (function : NodeId) : List NodeId :=
  match arena.definition? function with
  | some (.function _ _ _ body) => arena.own body
  | _ => []

namespace Layout

variable {arena : Arena} {bindings : NodeTable NodeId} {types : NodeTable Ty} {id : NodeId}
  {ids : List NodeId} {peak peak' : Nat} {state between after : State}

/-- The bytes that a call hands over: a static link, unless it is bound to no definition, and its
arguments. What is no call hands over nothing. -/
def handed (arena : Arena) (bindings : NodeTable NodeId) (types : NodeTable Ty) (id : NodeId) :
    Nat :=
  match arena.expression? id with
  | some (.call _ arguments) =>
    (if bindings.contains id then wordSize else 0) + bytes types Ty.argumentSize? arguments
  | _ => 0

/-- The largest of some sizes. -/
def largest (sizes : List Nat) : Nat := sizes.foldr max 0

@[simp] theorem largest_nil : largest [] = 0 := rfl

@[simp] theorem largest_cons (size : Nat) (sizes : List Nat) :
    largest (size :: sizes) = max size (largest sizes) := rfl

@[simp] theorem largest_append (sizes others : List Nat) :
    largest (sizes ++ others) = max (largest sizes) (largest others) := by
  induction sizes with
  | nil => simp
  | cons size sizes ih => simp [ih, Nat.max_assoc]

theorem largest_replicate_zero (count : Nat) : largest (List.replicate count 0) = 0 := by
  induction count with
  | zero => rfl
  | succ count ih => simp [List.replicate_succ, ih]

/-- The bytes of the largest list of arguments that is handed over with an expression. -/
def peakOf (arena : Arena) (bindings : NodeTable NodeId) (types : NodeTable Ty) (id : NodeId) :
    Nat :=
  largest ((arena.own id).map (handed arena bindings types))

/-- The peak of an expression is its own, or that of one of its operands. -/
theorem peakOf_eq (ht : arena.IsTree) {kind : NodeKind} (hk : arena.kind? id = some kind) :
    peakOf arena bindings types id = max (handed arena bindings types id)
      (largest ((arena.operands id).map (peakOf arena bindings types))) := by
  have hflat : ∀ ids : List NodeId,
      largest ((ids.flatMap arena.own).map (handed arena bindings types)) =
        largest (ids.map (peakOf arena bindings types)) := by
    intro ids
    induction ids with
    | nil => rfl
    | cons first rest ih =>
      rw [List.flatMap_cons, List.map_append, largest_append, ih]
      rfl
  rw [peakOf, ht.own_eq hk, List.map_cons, largest_cons, hflat]

/-- What is no expression hands over nothing. -/
theorem peakOf_eq_zero (ht : arena.IsTree) {kind : NodeKind} (hk : arena.kind? id = some kind)
    (hn : ∀ item, kind ≠ .expression item) : peakOf arena bindings types id = 0 := by
  have he : arena.expression? id = none := by
    cases kind with
    | expression item => exact absurd rfl (hn item)
    | definitions | definition | type => simp [Arena.expression?, hk]
  simp [peakOf_eq ht hk, handed, Arena.operands, he]

/-- Definitions hand over nothing. -/
theorem largest_definitions (ht : arena.IsTree) {members : List NodeId}
    (hk : arena.kind? id = some (.definitions members)) :
    largest (members.map (peakOf arena bindings types)) = 0 := by
  obtain ⟨_, _, hs⟩ := ht.exists_subtree hk
  have hmembers : ∀ member ∈ members, peakOf arena bindings types member = 0 := by
    intro member hm
    obtain ⟨_, hsub, _, _⟩ := hs.child hk (List.mem_map_of_mem hm)
    obtain ⟨definition, hd⟩ := Option.isSome_iff_exists.mp hsub.isSome_definition?
    exact peakOf_eq_zero ht (Arena.kind?_of_definition? hd) (by simp)
  rw [List.map_congr_left hmembers, List.map_const', largest_replicate_zero]

/-- What is no call hands over what the nodes below it do. -/
theorem peakOf_eq_largest (ht : arena.IsTree) {item : Expression}
    (hk : arena.kind? id = some (.expression item)) (hc : ∀ callee list, item ≠ .call callee list) :
    peakOf arena bindings types id = largest (item.children.map (peakOf arena bindings types)) := by
  have hown : handed arena bindings types id = 0 := by
    rw [handed, Arena.expression?_of_kind? hk]
    cases item with
    | call callee arguments => exact absurd rfl (hc callee arguments)
    | binary | block | forLoop | whileLoop | name | conditional | literal | unary
    | whereClause => rfl
  rw [peakOf_eq ht hk, hown, Nat.zero_max]
  by_cases hw : ∃ inner body, item = .whereClause inner body
  · obtain ⟨inner, body, rfl⟩ := hw
    obtain ⟨_, _, hs⟩ := ht.exists_subtree hk
    have hp : (Place.definitions, inner) ∈
        (NodeKind.expression (.whereClause inner body)).places := by simp [NodeKind.places]
    obtain ⟨_, hsub, _, _⟩ := hs.child hk hp
    obtain ⟨members, hki⟩ := hsub.exists_members
    rw [Arena.operands_whereClause hk]
    simp [Expression.children, peakOf_eq_zero ht hki (by simp)]
  · have hw' : ∀ inner body, item ≠ .whereClause inner body := by grind
    rw [Arena.operands_eq_children hk hw']

/-- The sizes of the rooms in open frames when the innermost one is raised to a peak. -/
def raised (peak : Nat) : List Nat → List Nat
  | [] => []
  | size :: others => max size peak :: others

@[simp] theorem raised_zero (sizes : List Nat) : raised 0 sizes = sizes := by
  cases sizes <;> simp [raised]

@[simp] theorem raised_raised (sizes : List Nat) :
    raised peak' (raised peak sizes) = raised (max peak peak') sizes := by
  cases sizes <;> simp [raised, Nat.max_assoc]

/-- The rooms for arguments in the open frames. -/
def State.rooms (state : State) : List Nat := state.drafts.map (·.frame.outgoingSize)

/-- What a visit does that hands over at most `peak` bytes in a call. -/
structure Reserves (arena : Arena) (bindings : NodeTable NodeId) (types : NodeTable Ty)
    (peak : Nat) (before after : State) : Prop where
  /-- There is room in the innermost open frame. -/
  rooms : after.rooms = raised peak before.rooms
  /-- New frames have room for what the bodies of their functions hand over. -/
  frames : ∀ id frame, after.layout.frames.get? id = some frame →
    before.layout.frames.get? id = some frame ∨
      frame.outgoingSize = largest ((arena.ownOf id).map (handed arena bindings types))

namespace Reserves

/-- Where the rooms and the frames are kept, nothing is handed over. -/
theorem keep (hr : after.rooms = state.rooms) (hf : after.layout.frames = state.layout.frames) :
    Reserves arena bindings types 0 state after :=
  ⟨by rw [hr, raised_zero], fun _ _ h => .inl (hf ▸ h)⟩

/-- The peak of two visits is the larger one of theirs. -/
theorem trans (hf : Reserves arena bindings types peak state between)
    (hs : Reserves arena bindings types peak' between after) :
    Reserves arena bindings types (max peak peak') state after where
  rooms := by rw [hs.rooms, hf.rooms, raised_raised]
  frames id frame h := by
    rcases hs.frames id frame h with hbetween | hroom
    · exact hf.frames id frame hbetween
    · exact .inr hroom

end Reserves

/-- Keeping an access changes no frame. -/
theorem recordAccess_frames {access : Access} :
    (recordAccess arena id access).Runs Pass.Any state fun _ after =>
      after.drafts = state.drafts ∧ after.layout.frames = state.layout.frames := by
  simp only [recordAccess, Pass.runs_bind, Pass.runs_get]
  split
  · exact ⟨rfl, rfl⟩
  · exact fail_runs

/-- A variable or a type definition hands over nothing. -/
theorem place_reserves {name : String} :
    (Layout.place arena types id name).Runs Pass.Any state fun _ after =>
      Reserves arena bindings types 0 state after := by
  simp only [Layout.place, Pass.runs_bind]
  refine measured_keeps.mono fun size found heq => ?_
  subst heq
  simp only [Pass.runs_get]
  split
  · refine recordAccess_frames.mono fun _ after hs => ?_
    exact .keep (by simp only [State.rooms, hs.1]) hs.2
  · simp only [placeLocal, Pass.runs_bind, Pass.runs_get]
    cases hd : found.drafts with
    | nil => exact fail_runs
    | cons draft others =>
      dsimp only
      split
      · exact fail_runs
      · next offset larger hroom =>
        have hkept : larger.frame.outgoingSize = draft.frame.outgoingSize := by
          simp only [FrameDraft.reserveLocal?_eq] at hroom
          split at hroom
          · cases hroom; rfl
          · cases hroom
        simp only [Pass.runs_bind, Pass.runs_set]
        refine recordAccess_frames.mono fun _ after hs => ?_
        exact .keep (by simp [State.rooms, hs.1, hd, hkept]) hs.2

/-- Laying out parameters reserves no room for arguments. -/
theorem layOutParameters_reserves {function : String} {draft : FrameDraft}
    {parameters : List NodeId} :
    (layOutParameters arena types function draft parameters).Runs Pass.Any state
      fun larger after => larger.frame.outgoingSize = draft.frame.outgoingSize ∧
        after.drafts = state.drafts ∧ after.layout.frames = state.layout.frames := by
  induction parameters generalizing draft state with
  | nil => exact ⟨rfl, rfl, rfl⟩
  | cons parameter others ih =>
    simp only [layOutParameters, Pass.runs_bind]
    refine measured_keeps.mono fun size found heq => ?_
    subst heq
    split
    · exact fail_runs
    · next offset larger hroom =>
      have hkept : larger.frame.outgoingSize = draft.frame.outgoingSize := by
        simp only [FrameDraft.reserveParameter?_eq] at hroom
        split at hroom
        · cases hroom; rfl
        · cases hroom
      simp only [Pass.runs_bind, Pass.runs_get]
      refine recordAccess_frames.mono fun _ placed hp => ?_
      refine ih.mono fun last after ha => ?_
      exact ⟨ha.1.trans hkept, ha.2.1.trans hp.1, ha.2.2.trans hp.2⟩

/-- An opened frame has no room for arguments. -/
theorem openFrame_reserves {name : String} {parameters : List NodeId} :
    (openFrame arena types id name parameters).Runs Pass.Any state fun draft after =>
      draft.frame.outgoingSize = 0 ∧ after.drafts = state.drafts ∧
        after.layout.frames = state.layout.frames := by
  simp only [openFrame, Pass.runs_bind]
  have hlabel : (functionLabel name).Runs Pass.Any state fun _ after =>
      after.drafts = state.drafts ∧ after.layout.frames = state.layout.frames := by
    simp only [functionLabel, Pass.runs_bind, Pass.runs_get]
    split <;> exact ⟨rfl, rfl⟩
  refine hlabel.mono fun label labelled hl => ?_
  simp only [Pass.runs_get]
  split
  · exact fail_runs
  · next offset draft hroom =>
    have hstart : draft.frame.outgoingSize = 0 := by
      simp only [FrameDraft.reserveParameter?_eq] at hroom
      split at hroom
      · cases hroom; rfl
      · cases hroom
    refine layOutParameters_reserves.mono fun larger after ha => ?_
    exact ⟨ha.1.trans hstart, ha.2.1.trans hl.1, ha.2.2.trans hl.2⟩

/-- The bytes of arguments are those that there were and their own. -/
theorem argumentBytes_eq {callee : String} {size : Nat} {arguments : List NodeId} :
    (argumentBytes arena types id callee size arguments).Runs Pass.Any state fun total after =>
      after = state ∧ total = size + bytes types Ty.argumentSize? arguments := by
  induction arguments generalizing size with
  | nil => exact ⟨rfl, rfl⟩
  | cons argument others ih =>
    simp only [argumentBytes, Pass.runs_bind]
    refine measured_blames.any.mono fun own found hm => ?_
    obtain ⟨rfl, type, htype, hsize⟩ := hm
    split
    · refine ih.mono fun total after ha => ⟨ha.1, ?_⟩
      rw [ha.2, bytes_cons, htype, Option.bind_some, hsize, Option.getD_some, Nat.add_assoc]
    · exact fail_runs

section Node

variable {visit : NodeId → LayOut Unit} (ht : arena.IsTree)
  (hvisit : ∀ below state, (visit below).Runs Pass.Any state fun _ after =>
    Reserves arena bindings types (peakOf arena bindings types below) state after)

include hvisit

/-- Nodes are visited one by one. -/
theorem forM_reserves : (ids.forM visit).Runs Pass.Any state fun _ after =>
    Reserves arena bindings types (largest (ids.map (peakOf arena bindings types))) state
      after := by
  induction ids generalizing state with
  | nil => simpa using Reserves.keep rfl rfl
  | cons id others ih =>
    simp only [List.forM_eq_forM, List.forM_cons, Pass.runs_bind] at ih ⊢
    refine (hvisit id state).mono fun _ between hb => ?_
    exact ih.mono fun _ after ha => hb.trans ha

/-- A call hands over what its arguments do, and then the arguments. -/
theorem layOutCall_reserves {callee : String} {arguments : List NodeId}
    (hk : arena.kind? id = some (.expression (.call callee arguments))) :
    (layOutCall arena bindings types visit id callee arguments).Runs Pass.Any state fun _ after =>
      Reserves arena bindings types
        (max (handed arena bindings types id)
          (largest (arguments.map (peakOf arena bindings types)))) state after := by
  have hown : handed arena bindings types id =
      (if bindings.contains id then wordSize else 0) + bytes types Ty.argumentSize? arguments := by
    simp [handed, Arena.expression?_of_kind? hk]
  simp only [layOutCall, Pass.runs_bind]
  refine (forM_reserves hvisit).mono fun _ visited hv => ?_
  refine argumentBytes_eq.mono fun total found hm => ?_
  obtain ⟨rfl, rfl⟩ := hm
  rw [← hown, Nat.max_comm]
  simp only [reserveArguments, Pass.runs_modify]
  refine hv.trans ⟨?_, ?_⟩
  · cases hd : found.drafts <;> simp [State.rooms, hd, raised, FrameDraft.reserveArguments]
  · intro other frame h
    cases hd : found.drafts <;> exact .inl (by simpa [hd] using h)

/-- A function hands over nothing where it stands. Its frame has room for what its body does. -/
theorem layOutFunction_reserves {name : String} {parameters : List NodeId} {result body : NodeId}
    (hk : arena.kind? id = some (.definition (.function name parameters result body))) :
    (layOutFunction arena types visit id name parameters body).Runs Pass.Any state fun _ after =>
      Reserves arena bindings types 0 state after := by
  have hown : arena.ownOf id = arena.own body := by simp [Arena.ownOf, Arena.definition?, hk]
  simp only [layOutFunction, Pass.runs_bind, Pass.runs_modify]
  refine openFrame_reserves.mono fun draft opened ho => ?_
  obtain ⟨hstart, hdrafts, hframes⟩ := ho
  simp only [Pass.runs_leaving, Pass.runs_bind, Pass.runs_get, Pass.runs_pure]
  refine (hvisit body _).mono fun _ visited hv => ?_
  have hrooms := hv.rooms
  cases hd : visited.drafts with
  | nil => exact fail_runs
  | cons built others =>
    simp only [State.rooms, hd, List.map_cons, raised, List.cons.injEq, hstart, Nat.zero_max]
      at hrooms
    simp only [List.head?_cons, recordFrame, Pass.runs_bind, Pass.runs_get]
    split
    · next frames hs =>
      refine ⟨?_, fun other frame h => ?_⟩
      · simp [State.rooms, State.closed, hd, hrooms.2, hdrafts]
      · rw [NodeTable.get?_store? hs] at h
        by_cases hsame : other = id
        · have hframe : built.frame = frame := by simpa [hsame] using h
          rw [hsame, ← hframe, hown]
          exact .inr hrooms.1
        · rw [if_neg hsame] at h
          exact (hv.frames other frame h).imp_left fun hkept => hframes ▸ hkept
    · exact fail_runs

include ht

/-- A node is visited. -/
theorem visitNode_reserves :
    (visitNode arena bindings types visit id).Runs Pass.Any state fun _ after =>
      Reserves arena bindings types (peakOf arena bindings types id) state after := by
  cases hk : arena.kind? id with
  | none =>
    simp only [visitNode, hk]
    exact fail_runs
  | some kind =>
    simp only [visitNode, hk]
    have hsilent : (∀ item, kind ≠ .expression item) → peakOf arena bindings types id = 0 :=
      peakOf_eq_zero ht hk
    cases kind with
    | type =>
      rw [hsilent (by simp)]
      exact .keep rfl rfl
    | definitions members =>
      have hnone : largest (members.map (peakOf arena bindings types)) = 0 :=
        largest_definitions ht hk
      rw [hsilent (by simp), ← hnone]
      exact forM_reserves hvisit
    | definition item =>
      rw [hsilent (by simp)]
      cases item with
      | function name parameters result body => exact layOutFunction_reserves hvisit hk
      | var | type => exact place_reserves
      | parameter => exact .keep rfl rfl
    | expression item =>
      cases item with
      | call callee arguments =>
        rw [peakOf_eq ht hk, Arena.operands_eq_children hk (by simp)]
        exact layOutCall_reserves hvisit hk
      | binary | block | forLoop | whileLoop | name | conditional | literal | unary
      | whereClause =>
        rw [peakOf_eq_largest ht hk (by simp)]
        exact forM_reserves hvisit

end Node

/-- Every node is visited with the peak of what is computed with it. -/
theorem visitWithin_reserves (ht : arena.IsTree) : ∀ (fuel : Nat) (id : NodeId) (state : State),
    (visitWithin arena bindings types fuel id).Runs Pass.Any state fun _ after =>
      Reserves arena bindings types (peakOf arena bindings types id) state after
  | 0, _, _ => fail_runs
  | fuel + 1, _, _ => visitNode_reserves ht (visitWithin_reserves ht fuel)

/-- Every frame has room for the largest list of arguments that its function hands over. -/
theorem ofArena_outgoing {labels left : LabelSupply} {layout : Layout} {frame : Frame}
    (ht : arena.IsTree) (hl : ofArena arena bindings types labels = .ok (layout, left))
    (hf : layout.frames.get? id = some frame) :
    frame.outgoingSize = largest ((arena.ownOf id).map (handed arena bindings types)) := by
  have ⟨root, hroot, _, _⟩ := ht
  simp only [ofArena, hroot] at hl
  obtain ⟨_, after, hreserves, he⟩ := (visitWithin_reserves ht _ root _).of_map_ok hl
  cases he
  rcases hreserves.frames id frame hf with hbefore | hroom
  · simp [State.initial, empty] at hbefore
  · exact hroom

/-- A fault that layout is allowed names what is too large for a frame. -/
theorem Refuses.exists_name {fault : Fault} (h : Refuses fault) :
    ∃ name, fault = .frameTooLarge name := by
  cases fault with
  | frameTooLarge name => exact ⟨name, rfl⟩
  | _ => exact h.elim

/-- The bytes of a frame below its frame pointer: the locals, two words and the largest list of
arguments. -/
def frameBytes (arena : Arena) (bindings : NodeTable NodeId) (types : NodeTable Ty) (id : NodeId) :
    Nat :=
  bytes types Ty.size? (arena.localsOf id) + 2 * wordSize +
    largest ((arena.ownOf id).map (handed arena bindings types))

/-- A node that is no function has no more than the two words. -/
theorem frameBytes_of_not_function (hn : (arena.kind? id).any NodeKind.isFunction = false) :
    frameBytes arena bindings types id ≤ maxObjectSize := by
  have hnone : ∀ name parameters result body,
      arena.definition? id ≠ some (.function name parameters result body) := by
    intro name parameters result body hd
    rw [Arena.kind?_of_definition? hd] at hn
    cases hn
  have hlocals : arena.localsOf id = [] := by
    unfold Arena.localsOf
    split
    · next hd => exact absurd hd (hnone _ _ _ _)
    · rfl
  have hown : arena.ownOf id = [] := by
    unfold Arena.ownOf
    split
    · next hd => exact absurd hd (hnone _ _ _ _)
    · rfl
  have hwords : 2 * wordSize ≤ maxObjectSize := by decide
  simpa [frameBytes, hlocals, hown] using hwords

/-- The bytes of a frame are its locals, two words and its room for arguments. -/
theorem ofArena_frameBytes {labels left : LabelSupply} {layout : Layout} {frame : Frame}
    (ht : arena.IsTree) (hl : ofArena arena bindings types labels = .ok (layout, left))
    (hf : layout.frames.get? id = some frame) :
    frame.localsSize + 2 * wordSize + frame.outgoingSize = frameBytes arena bindings types id := by
  have hlocals := (ofArena_tiled ht hl hf).locals.locals_eq
  rw [frameBytes, hlocals, ofArena_outgoing ht hl hf, Nat.zero_add]

end Layout

namespace Compilation

variable {arena : Arena} {bindings : NodeTable NodeId} {types : NodeTable Ty}

/-- Laying out a typed program is all that can stop its compilation. -/
theorem ofSource_eq_error_of_layout {file source : String} {tokens : List Token}
    {diagnostic : Diagnostic} (hs : tokenize file source = .ok tokens)
    (hp : parse file tokens = .ok arena) (hb : Binding.ofArena arena = .ok bindings)
    (ht : Typing.ofArena arena bindings = .ok types)
    (hl : Layout.ofArena arena bindings types .full = .error diagnostic) :
    ofSource file source = .error diagnostic := by
  simp [ofSource, ofArena, bind, Except.bind, hs, hp, hb, ht, hl]

/-- A program in which the locals or the parameters of a function overflow is refused for a frame
that is too large. In a program that compiles, a frame takes its locals, two words and the largest
list of arguments that its function hands over. All frames have this size and can be addressed
exactly if it is small enough for every function: this last sum is not checked. -/
theorem frames_fit_iff {file source : String} {tokens : List Token}
    (hs : tokenize file source = .ok tokens) (hp : parse file tokens = .ok arena)
    (hb : Binding.ofArena arena = .ok bindings) (ht : Typing.ofArena arena bindings = .ok types) :
    ((∃ id, Layout.Overflows arena types id) → ∃ diagnostic name,
        ofSource file source = .error diagnostic ∧ diagnostic.fault = .frameTooLarge name) ∧
      ∀ compilation, ofSource file source = .ok compilation →
        (∀ id frame, compilation.program.layout.frames.get? id = some frame →
          frame.localsSize + 2 * wordSize + frame.outgoingSize =
            Layout.frameBytes arena bindings types id) ∧
        ((∀ id frame, compilation.program.layout.frames.get? id = some frame →
            frame.size = frame.localsSize + 2 * wordSize + frame.outgoingSize ∧
              frame.size ≤ maxObjectSize) ↔
          ∀ id, Layout.frameBytes arena bindings types id ≤ maxObjectSize) := by
  have htree := parse_isTree hp
  have hsized := (Typing.ofArena_typed htree (Binding.ofArena_bound htree hb) ht).sized htree
  refine ⟨fun hoverflows => ?_, fun compilation hc => ?_⟩
  · obtain ⟨id, ho⟩ := hoverflows
    cases hl : Layout.ofArena arena bindings types .full with
    | ok laid =>
      have hlaid := Layout.ofArena_laidOut htree hsized hl
      exact absurd ho (hlaid.not_overflows fun hf => Layout.ofArena_tiled htree hl hf)
    | error diagnostic =>
      obtain ⟨name, hfault⟩ := (Layout.ofArena_refuses htree hsized hl).exists_name
      exact ⟨diagnostic, name, ofSource_eq_error_of_layout hs hp hb ht hl, hfault⟩
  · obtain ⟨_, _, hs', hp', ha⟩ := ofSource_eq_ok hc
    cases hs.symm.trans hs'
    cases hp.symm.trans hp'
    obtain ⟨_, _, layout, left, hb', ht', hl, _, he⟩ := ofArena_eq_ok ha
    cases hb.symm.trans hb'
    cases ht.symm.trans ht'
    rw [he]
    have hbytes : ∀ id frame, layout.frames.get? id = some frame →
        frame.localsSize + 2 * wordSize + frame.outgoingSize =
          Layout.frameBytes arena bindings types id :=
      fun id frame hf => Layout.ofArena_frameBytes htree hl hf
    refine ⟨hbytes, fun hfits id => ?_, fun hsmall id frame hf => ?_⟩
    · by_cases hfunction : (arena.kind? id).any NodeKind.isFunction = true
      · obtain ⟨frame, hf⟩ := (Layout.ofArena_laidOut htree hsized hl).exists_frame hfunction
        have hfit := hfits id frame hf
        rw [← hbytes id frame hf, ← hfit.1]
        exact hfit.2
      · exact Layout.frameBytes_of_not_function (Bool.not_eq_true _ ▸ hfunction)
    · have hsum := hbytes id frame hf
      have hroom := hsmall id
      have hwords : maxObjectSize ≤ Text.maxUnsigned := by decide
      rw [Frame.size]
      omega

/-- A function whose locals leave room for no more than the static link of a call compiles, and its
frame fits. -/
theorem frames_fit_of_full :
    ∃ tokens arena bindings types compilation, tokenize "test"
        "fun f(): integer = f() \x7bwhere var x: arr[536870908] integer\x7d" = .ok tokens ∧
      parse "test" tokens = .ok arena ∧ Binding.ofArena arena = .ok bindings ∧
      Typing.ofArena arena bindings = .ok types ∧
      ofSource "test" "fun f(): integer = f() \x7bwhere var x: arr[536870908] integer\x7d" =
        .ok compilation ∧
      (∃ id frame, compilation.program.layout.frames.get? id = some frame ∧
        frame.size = 2147483644) ∧
      ∀ id, Layout.frameBytes arena bindings types id ≤ maxObjectSize := by
  obtain ⟨compilation, hc, hfits, hfull⟩ : ∃ compilation, ofSource "test"
      "fun f(): integer = f() \x7bwhere var x: arr[536870908] integer\x7d" = .ok compilation ∧
      (∀ entry ∈ compilation.program.layout.frames.entries,
        entry.2.size = entry.2.localsSize + 2 * wordSize + entry.2.outgoingSize ∧
          entry.2.size ≤ maxObjectSize) ∧
      ∃ entry ∈ compilation.program.layout.frames.entries, entry.2.size = 2147483644 :=
    exists_of_any (by decide +kernel)
  obtain ⟨tokens, arena, hs, hp, ha⟩ := ofSource_eq_ok hc
  obtain ⟨bindings, types, layout, left, hb, ht, _⟩ := ofArena_eq_ok ha
  obtain ⟨⟨id, frame⟩, hm, hsize⟩ := hfull
  have hsmall := ((frames_fit_iff hs hp hb ht).2 compilation hc).2.mp fun other found hf =>
    hfits (other, found) ((NodeTable.mem_entries_iff _ other found).mpr hf)
  exact ⟨tokens, arena, bindings, types, compilation, hs, hp, hb, ht, hc,
    ⟨id, frame, (NodeTable.mem_entries_iff _ id frame).mp hm, hsize⟩, hsmall⟩

/-- The locals of a function fill its frame up, and the arguments of a call do not fit below
them. -/
theorem frame_too_large_for_arguments :
    ∃ compilation, ofSource "test" ("fun g(a: integer): integer = a; " ++
        "fun f(): integer = (g(1), 0 \x7bwhere var x: arr[536870909] integer\x7d)") =
          .ok compilation ∧
      ∃ entry ∈ compilation.program.layout.frames.entries, maxObjectSize < entry.2.size :=
  exists_of_any (by decide +kernel)

end Compilation

end Pins
