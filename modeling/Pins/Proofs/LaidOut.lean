import Pins.Proofs.Placed

/-!
# Laid out programs

Laying out a typed program finds nothing wrong with it but frames that are too large. If it ends
without a fault, exactly the functions have frames, and exactly the variables, type definitions and
parameters have accesses, each of the size of its type (`ofArena_laidOut`). Outside all functions
values have labels, and functions are framed (`Framed`).

A visit leaves the level and the open frames as it found them, but for the locals and the calls of
the innermost one. As long as there are as many open frames as the level says, a local has a frame
to lie in. The locals that a visit adds lie directly below those that were there before.
-/

namespace Pins

/-- A definition of this kind keeps a value. -/
def NodeKind.keepsValue : NodeKind → Bool
  | definition (.var ..) | definition (.type ..) | definition (.parameter ..) => true
  | _ => false

/-- What keeps a value is no function. -/
theorem NodeKind.isFunction_of_keepsValue {kind : NodeKind} (h : kind.keepsValue = true) :
    kind.isFunction = false := by
  cases kind with
  | definition item => cases item <;> first | rfl | cases h
  | definitions | expression | type => rfl

/-- An access is of the size of the type of its node; arrays are handed over by address. -/
def Access.Measures (types : NodeTable Ty) (id : NodeId) (access : Access) : Prop :=
  ∃ type, types.get? id = some type ∧
    match access with
    | .global size _ | .inFrame size _ _ => type.size? = some size
    | .parameter size _ _ => type.argumentSize? = some size

namespace Layout

variable {arena : Arena} {bindings : NodeTable NodeId} {types : NodeTable Ty} {id : NodeId}
  {place : Place} {first middle last : Nat} {state between after : State}
  {outer : Option NodeId} {layout : Layout} {access : Access}

/-- A node has an access exactly if it keeps a value, and one of the size of its type. -/
def AccessRight (arena : Arena) (types : NodeTable Ty) (id : NodeId) (access : Option Access) :
    Prop :=
  access.isSome = (arena.kind? id).any NodeKind.keepsValue ∧
    ∀ found ∈ access, found.Measures types id

/-- A node has a frame exactly if it is a function. -/
def FrameRight (arena : Arena) (id : NodeId) (frame : Option Frame) : Prop :=
  frame.isSome = (arena.kind? id).any NodeKind.isFunction

/-- The faults that laying out may find in a typed program. -/
def Refuses : Fault → Prop
  | .frameTooLarge _ => True
  | _ => False

/-- The type of a node is known and can be measured. -/
def Measured (types : NodeTable Ty) (sizeOf? : Ty → Option Nat) (id : NodeId) : Prop :=
  ∃ type, types.get? id = some type ∧ (sizeOf? type).isSome

/-- Whatever is measured in a program has a size. -/
structure Sized (arena : Arena) (types : NodeTable Ty) : Prop where
  /-- Variables, type definitions and parameters have a size. -/
  storage : ∀ {id : NodeId} {kind : NodeKind}, id.index < arena.size → arena.kind? id = some kind →
    kind.keepsValue = true → Measured types Ty.size? id
  /-- Arguments have a size. -/
  argument : ∀ {id : NodeId} {callee : String} {arguments : List NodeId}, id.index < arena.size →
    arena.expression? id = some (.call callee arguments) → ∀ argument ∈ arguments,
      Measured types Ty.argumentSize? argument

/-- A type that has a size has one as an argument. -/
theorem Measured.argument (h : Measured types Ty.size? id) :
    Measured types Ty.argumentSize? id := by
  obtain ⟨type, ht, hs⟩ := h
  refine ⟨type, ht, ?_⟩
  cases type <;> simp_all [Ty.argumentSize?]

/-- The bytes of the locals in the innermost open frame. -/
def State.held (state : State) : Nat :=
  match state.drafts with
  | [] => 0
  | draft :: _ => draft.frame.localsSize

/-- Of the open frames only the innermost one changes, and that only by more locals and calls. -/
def Deepens : List FrameDraft → List FrameDraft → Prop
  | [], [] => True
  | draft :: others, draft' :: others' =>
    others' = others ∧ draft'.frame.label = draft.frame.label ∧
      draft'.frame.level = draft.frame.level ∧
      draft'.frame.parametersSize = draft.frame.parametersSize ∧
      draft.frame.localsSize ≤ draft'.frame.localsSize ∧
      (draft.frame.localsSize + 2 * wordSize ≤ maxObjectSize →
        draft'.frame.localsSize + 2 * wordSize ≤ maxObjectSize)
  | _, _ => False

namespace Deepens

variable {drafts drafts' drafts'' : List FrameDraft}

theorem refl : ∀ drafts : List FrameDraft, Deepens drafts drafts
  | [] => trivial
  | _ :: _ => ⟨rfl, rfl, rfl, rfl, Nat.le_refl _, id⟩

theorem trans (hf : Deepens drafts drafts') (hs : Deepens drafts' drafts'') :
    Deepens drafts drafts'' := by
  cases drafts <;> cases drafts' <;> cases drafts'' <;> simp only [Deepens] at hf hs
  · trivial
  obtain ⟨ho, hlabel, hlevel, hp, hl, hm⟩ := hf
  obtain ⟨ho', hlabel', hlevel', hp', hl', hm'⟩ := hs
  exact ⟨ho'.trans ho, hlabel'.trans hlabel, hlevel'.trans hlevel, hp'.trans hp,
    Nat.le_trans hl hl', fun h => hm' (hm h)⟩

theorem length_eq (h : Deepens drafts drafts') : drafts'.length = drafts.length := by
  cases drafts <;> cases drafts' <;> simp only [Deepens] at h
  · rfl
  · simp only [List.length_cons, h.1]

theorem held_le (h : Deepens state.drafts after.drafts) : state.held ≤ after.held := by
  unfold State.held
  cases hs : state.drafts <;> cases ha : after.drafts <;>
    simp only [hs, ha, Deepens] at h ⊢
  · exact Nat.le_refl _
  · exact h.2.2.2.2.1

end Deepens

/-- The innermost open frame can be addressed. -/
def Addressable (state : State) : Prop :=
  ∀ draft ∈ state.drafts.head?, draft.frame.localsSize + 2 * wordSize ≤ maxObjectSize

theorem Deepens.addressable (h : Deepens state.drafts after.drafts) (ha : Addressable state) :
    Addressable after := by
  intro draft hd
  cases hs : state.drafts <;> cases hf : after.drafts <;> simp only [hs, hf, Deepens] at h
  · simp [hf] at hd
  · next innermost _ innermost' _ =>
    obtain rfl : innermost' = draft := by simpa [hf] using hd
    exact h.2.2.2.2.2 (ha innermost (by simp [hs]))

/-- What visiting an interval of nodes in a function needs. -/
structure Ready (arena : Arena) (outer : Option NodeId) (first last : Nat) (state : State) :
    Prop where
  /-- There are as many open frames as functions around the nodes. -/
  balanced : state.drafts.length = state.level
  /-- The level is that of the function around the nodes. -/
  level : arena.Level outer state.level
  /-- The innermost open frame can be addressed. -/
  addressable : Addressable state
  /-- Nothing in the interval has an access. -/
  accesses : state.layout.accesses.Unset first last
  /-- Nothing in the interval has a frame. -/
  frames : state.layout.frames.Unset first last

/-- What visiting an interval of nodes in a function does. -/
structure Done (arena : Arena) (types : NodeTable Ty) (outer : Option NodeId) (first last : Nat)
    (before after : State) : Prop where
  /-- The level is kept. -/
  level : after.level = before.level
  /-- The open frames are kept, but for locals and calls. -/
  drafts : Deepens before.drafts after.drafts
  /-- In the interval, exactly what keeps a value has an access. -/
  accesses : NodeTable.Fills first last (AccessRight arena types) before.layout.accesses
    after.layout.accesses
  /-- In the interval, exactly the functions have frames. -/
  frames : NodeTable.Fills first last (FrameRight arena) before.layout.frames after.layout.frames
  /-- What stands directly in the function is placed below the locals of before. -/
  placed : Placed arena outer first last (Between before.level before.held after.held) after.layout
  /-- The functions of the interval are framed. -/
  framed : ∀ {id frame}, first ≤ id.index → id.index < last →
    after.layout.frames.get? id = some frame → Framed arena after.layout id frame

namespace Done

theorem refl (first : Nat) (state : State) : Done arena types outer first first state state where
  level := rfl
  drafts := .refl _
  accesses := .refl _
  frames := .refl _
  placed := .unset fun _ hf hl => absurd hl (Nat.not_lt.mpr hf)
  framed hf hl _ := absurd hl (Nat.not_lt.mpr hf)

/-- Visits of neighbouring intervals are a visit of both. -/
theorem trans (hl : first ≤ middle) (hr : middle ≤ last)
    (hf : Done arena types outer first middle state between)
    (hs : Done arena types outer middle last between after) :
    Done arena types outer first last state after where
  level := hs.level.trans hf.level
  drafts := hf.drafts.trans hs.drafts
  accesses := hf.accesses.trans hl hr hs.accesses
  frames := hf.frames.trans hl hr hs.frames
  placed := by
    have hlow := hf.drafts.held_le
    have hhigh := hs.drafts.held_le
    have hfront := hf.placed.congr fun id _ hm _ => hs.accesses.outside id (.inl hm)
    refine (hfront.append hs.placed fun _ _ => Between.apart).mono fun access h => ?_
    rcases h with h | h
    · exact h.mono (Nat.le_refl _) hhigh
    · exact (hf.level ▸ h).mono hlow (Nat.le_refl _)
  framed {id frame} hi ht hframe := by
    rcases Nat.lt_or_ge id.index middle with hlt | hge
    · rw [hs.frames.outside id (.inl hlt)] at hframe
      exact (hf.framed hi hlt hframe).congr fun node hn _ =>
        hs.accesses.outside node (.inl (by omega))
    · exact hs.framed hge ht hframe

/-- Visits of neighbouring intervals are a visit of both, the second one first, if the functions
there have nothing in the first one. -/
theorem trans_back (hl : first ≤ middle) (hr : middle ≤ last)
    (hin : ∀ {owner node : NodeId}, middle ≤ owner.index → owner.index < last →
      arena.Encloses (some owner) node → middle ≤ node.index)
    (hf : Done arena types outer middle last state between)
    (hs : Done arena types outer first middle between after) :
    Done arena types outer first last state after where
  level := hs.level.trans hf.level
  drafts := hf.drafts.trans hs.drafts
  accesses := hf.accesses.trans_back hl hr hs.accesses
  frames := hf.frames.trans_back hl hr hs.frames
  placed := by
    have hlow := hf.drafts.held_le
    have hhigh := hs.drafts.held_le
    have hback := hf.placed.congr fun id hm _ _ => hs.accesses.outside id (.inr hm)
    refine (hs.placed.append hback fun _ _ h h' => (Between.apart h' h).symm).mono
      fun access h => ?_
    rcases h with h | h
    · exact (hf.level ▸ h).mono hlow (Nat.le_refl _)
    · exact h.mono (Nat.le_refl _) hhigh
  framed {id frame} hi ht hframe := by
    rcases Nat.lt_or_ge id.index middle with hlt | hge
    · exact hs.framed hi hlt hframe
    · rw [hs.frames.outside id (.inr hge)] at hframe
      exact (hf.framed hge ht hframe).congr fun node _ he =>
        hs.accesses.outside node (.inr (hin hge ht he))

end Done

/-- Visits of neighbouring intervals of nodes in a function. -/
def sweep (arena : Arena) (types : NodeTable Ty) (outer : Option NodeId) : Sweep State where
  ready := Ready arena outer
  done := Done arena types outer
  refl := .refl
  trans hl hr hf hs := hf.trans hl hr hs
  ready_front _ hr h :=
    { h with
      accesses := h.accesses.mono (Nat.le_refl _) hr
      frames := h.frames.mono (Nat.le_refl _) hr }
  ready_behind hl _ h hd :=
    { balanced := hd.drafts.length_eq.trans (h.balanced.trans hd.level.symm)
      level := hd.level ▸ h.level
      addressable := hd.drafts.addressable h.addressable
      accesses := (h.accesses.mono hl (Nat.le_refl _)).behind hd.accesses
      frames := (h.frames.mono hl (Nat.le_refl _)).behind hd.frames }

/-- Nodes that keep no value and are no functions are laid out by doing nothing. -/
theorem done_skip (ha : state.layout.accesses.Unset first last)
    (hf : state.layout.frames.Unset first last)
    (hn : ∀ id : NodeId, first ≤ id.index → id.index < last →
      ∀ kind, arena.kind? id = some kind → kind.keepsValue = false ∧ kind.isFunction = false) :
    Done arena types outer first last state state where
  level := rfl
  drafts := .refl _
  accesses := .skip ha fun id hi hl => by
    cases hk : arena.kind? id with
    | none => simp [AccessRight, hk]
    | some kind => simp [AccessRight, hk, (hn id hi hl kind hk).1]
  frames := .skip hf fun id hi hl => by
    cases hk : arena.kind? id with
    | none => simp [FrameRight, hk]
    | some kind => simp [FrameRight, hk, (hn id hi hl kind hk).2]
  placed := .unset ha
  framed {id frame} hi hl hframe := by
    cases (hf id hi hl).symm.trans hframe

/-- A written type is laid out by doing nothing. -/
theorem done_written (h : arena.Subtree .type first id)
    (ha : state.layout.accesses.Unset first (id.index + 1))
    (hf : state.layout.frames.Unset first (id.index + 1)) :
    Done arena types outer first (id.index + 1) state state := by
  refine done_skip ha hf fun other hi hl kind hk => ?_
  obtain ⟨written, hw⟩ := Arena.Forest.types h (by simp) hi hl
  rw [hw, Option.some.injEq] at hk
  subst hk
  exact ⟨rfl, rfl⟩

/-- A node without access and frame is done with behind the forest below it. -/
theorem done_closed {kind : NodeKind} (hk : arena.kind? id = some kind)
    (hv : kind.keepsValue = false) (hn : kind.isFunction = false) (hle : first ≤ id.index)
    (hr : Ready arena outer first (id.index + 1) state)
    (hd : Done arena types outer first id.index state after) :
    Done arena types outer first (id.index + 1) state after := by
  have hready := (sweep arena types outer).ready_behind hle (Nat.le_succ _) hr hd
  refine hd.trans hle (Nat.le_succ _) (done_skip hready.accesses hready.frames ?_)
  intro other hi hl kind' hk'
  obtain rfl : other = id := NodeId.eq_of_index (by omega)
  rw [hk, Option.some.injEq] at hk'
  subst hk'
  exact ⟨hv, hn⟩

/-- What has a size is measured. -/
theorem measured_runs {sizeOf? : Ty → Option Nat} (h : Measured types sizeOf? id) :
    (measured arena types sizeOf? id).Runs (Pass.Reports Refuses) state fun size after =>
      after = state ∧ ∃ type, types.get? id = some type ∧ sizeOf? type = some size := by
  obtain ⟨type, ht, hs⟩ := h
  obtain ⟨size, hsize⟩ := Option.isSome_iff_exists.mp hs
  simp [measured, ht, hsize]

/-- What a step does that stores the access of one node. -/
structure Stores (arena : Arena) (types : NodeTable Ty) (id : NodeId) (access : Access)
    (before after : State) : Prop where
  /-- The level is kept. -/
  level : after.level = before.level
  /-- The open frames are kept. -/
  drafts : after.drafts = before.drafts
  /-- The node has an access. -/
  accesses : NodeTable.Fills id.index (id.index + 1) (AccessRight arena types)
    before.layout.accesses after.layout.accesses
  /-- No frame is stored. -/
  frames : after.layout.frames = before.layout.frames
  /-- It is this access. -/
  stored : after.layout.accesses.get? id = some access

/-- The access of a node that keeps a value is stored. -/
theorem recordAccess_runs {kind : NodeKind} (hk : arena.kind? id = some kind)
    (hv : kind.keepsValue = true) (hm : access.Measures types id)
    (ha : state.layout.accesses.get? id = none) :
    (recordAccess arena id access).Runs (Pass.Reports Refuses) state fun _ after =>
      Stores arena types id access state after := by
  obtain ⟨accesses, hs⟩ := NodeTable.exists_store? access ha
  simp only [recordAccess, Pass.runs_bind, Pass.runs_get, hs, Pass.runs_set]
  have hright : AccessRight arena types id (some access) := by
    refine ⟨by simp [hk, hv], fun found hf => ?_⟩
    cases hf
    exact hm
  exact ⟨rfl, rfl, .store hs hright, rfl, by simp [NodeTable.get?_store? hs]⟩

/-- A node that keeps a value has no frame. -/
theorem frames_skip {frames : NodeTable Frame} {kind : NodeKind} (hk : arena.kind? id = some kind)
    (hv : kind.keepsValue = true) (hf : frames.get? id = none) :
    NodeTable.Fills id.index (id.index + 1) (FrameRight arena) frames frames := by
  refine .skip ?_ ?_
  all_goals
    intro other hi hl
    obtain rfl : other = id := NodeId.eq_of_index (by omega)
  · exact hf
  · simp [FrameRight, hk, NodeKind.isFunction_of_keepsValue hv]

/-- Storing an access that fits the innermost open frame is a visit of its node. -/
theorem Stores.done {kind : NodeKind} (h : Stores arena types id access between after)
    (hk : arena.kind? id = some kind) (hv : kind.keepsValue = true)
    (hf : state.layout.frames.get? id = none) (hlayout : between.layout = state.layout)
    (hlevel : between.level = state.level) (hdrafts : Deepens state.drafts between.drafts)
    (hfits : Between state.level state.held between.held access) :
    Done arena types outer id.index (id.index + 1) state after where
  level := h.level.trans hlevel
  drafts := h.drafts ▸ hdrafts
  accesses := hlayout ▸ h.accesses
  frames := by
    rw [h.frames, hlayout]
    exact frames_skip hk hv hf
  placed := by
    have hheld : after.held = between.held := by simp only [State.held, h.drafts]
    rw [hheld]
    exact .single h.stored hfits
  framed {other frame} hi hl hframe := by
    obtain rfl : other = id := NodeId.eq_of_index (by omega)
    rw [h.frames, hlayout, hf] at hframe
    cases hframe

/-- A variable or a type definition finds room under a label or in the innermost open frame. -/
theorem place_runs {name : String} {kind : NodeKind} (hk : arena.kind? id = some kind)
    (hv : kind.keepsValue = true) (hm : Measured types Ty.size? id)
    (hb : state.drafts.length = state.level) (ha : state.layout.accesses.get? id = none)
    (hf : state.layout.frames.get? id = none) :
    (Layout.place arena types id name).Runs (Pass.Reports Refuses) state fun _ after =>
      Done arena types outer id.index (id.index + 1) state after := by
  simp only [Layout.place, Pass.runs_bind]
  refine (measured_runs hm).mono fun size between heq => ?_
  obtain ⟨rfl, type, htype, hsize⟩ := heq
  simp only [Pass.runs_get]
  split
  · next hlevel =>
    have hmeasures : (Access.global size (.named name)).Measures types id := ⟨type, htype, hsize⟩
    refine (recordAccess_runs hk hv hmeasures ha).mono fun _ after hs => ?_
    exact hs.done hk hv hf rfl rfl (.refl _) hlevel
  · next hlevel =>
    simp only [placeLocal, Pass.runs_bind, Pass.runs_get]
    cases hd : between.drafts with
    | nil => exact absurd (by simpa [hd] using hb.symm) hlevel
    | cons draft others =>
      dsimp only
      split
      · simp [fail, Refuses]
      · next offset larger hroom =>
        simp only [Pass.runs_bind, Pass.runs_set]
        simp only [FrameDraft.reserveLocal?_eq] at hroom
        split at hroom
        · next hfits =>
          cases hroom
          have hmeasures : (Access.inFrame size (-((draft.frame.localsSize + size : Nat) : Int))
              between.level).Measures types id := ⟨type, htype, hsize⟩
          let filled : State := { between with
            drafts := ⟨{ draft.frame with localsSize := draft.frame.localsSize + size }⟩ :: others }
          have hrecord : (recordAccess arena id (.inFrame size
              (-((draft.frame.localsSize + size : Nat) : Int)) between.level)).Runs
                (Pass.Reports Refuses) filled fun _ after =>
                  Stores arena types id _ filled after :=
            recordAccess_runs hk hv hmeasures ha
          refine hrecord.mono fun _ after hs => ?_
          refine hs.done hk hv hf rfl rfl ?_ ?_
          · rw [hd]
            exact ⟨rfl, rfl, rfl, rfl, Nat.le_add_right _ _, fun _ => hfits⟩
          · simp only [State.held, filled, hd, Between]
            exact ⟨Nat.pos_of_ne_zero hlevel, trivial, Int.le_refl _, by omega⟩
        · cases hroom

/-- What laying out parameters of a function does: they are placed behind those there were. -/
structure Receives (arena : Arena) (types : NodeTable Ty) (outer : Option NodeId)
    (first last : Nat) (draft larger : FrameDraft) (before after : State) : Prop where
  /-- The level is kept. -/
  level : after.level = before.level
  /-- The open frames are kept. -/
  drafts : after.drafts = before.drafts
  /-- In the interval, exactly the parameters have accesses. -/
  accesses : NodeTable.Fills first last (AccessRight arena types) before.layout.accesses
    after.layout.accesses
  /-- The interval needs no frames. -/
  frames : NodeTable.Fills first last (FrameRight arena) before.layout.frames after.layout.frames
  /-- No frame is stored. -/
  unframed : after.layout.frames = before.layout.frames
  /-- The frame keeps its level. -/
  frameLevel : larger.frame.level = draft.frame.level
  /-- The frame has no new locals. -/
  locals : larger.frame.localsSize = draft.frame.localsSize
  /-- The arguments become more. -/
  parameters : draft.frame.parametersSize ≤ larger.frame.parametersSize
  /-- The arguments can still be addressed. -/
  fits : draft.frame.parametersSize ≤ maxObjectSize →
    larger.frame.parametersSize ≤ maxObjectSize
  /-- The parameters lie behind the arguments there were. -/
  placed : Placed arena outer first last
    (Arrives before.level draft.frame.parametersSize larger.frame.parametersSize) after.layout

/-- The parameters of a function find room one behind the other. -/
theorem layOutParameters_runs {function : String} {draft : FrameDraft} {parameters : List NodeId}
    (hf : arena.Forest first (parameters.map (.parameter, ·)) last)
    (hm : ∀ parameter ∈ parameters, Measured types Ty.argumentSize? parameter)
    (ha : state.layout.accesses.Unset first last) (hu : state.layout.frames.Unset first last) :
    (layOutParameters arena types function draft parameters).Runs (Pass.Reports Refuses) state
      fun larger after => Receives arena types outer first last draft larger state after := by
  induction parameters generalizing first state draft with
  | nil =>
    obtain rfl := Arena.forest_nil_iff.mp hf
    exact ⟨rfl, rfl, .refl _, .refl _, rfl, rfl, rfl, Nat.le_refl _, id,
      .unset fun _ hf hl => absurd hl (Nat.not_lt.mpr hf)⟩
  | cons parameter others ih =>
    obtain ⟨hs, ho⟩ := Arena.forest_cons_iff.mp hf
    obtain ⟨name, written, hd, hw, hi⟩ := hs.parameter
    have hk := Arena.kind?_of_definition? hd
    have hwl := hw.le
    have hol := ho.le
    simp only [layOutParameters, Pass.runs_bind]
    refine (measured_runs (hm parameter List.mem_cons_self)).mono fun size between heq => ?_
    obtain ⟨rfl, type, htype, hsize⟩ := heq
    split
    · simp [fail, Refuses]
    · next offset larger hroom =>
      simp only [FrameDraft.reserveParameter?_eq] at hroom
      split at hroom
      · next hfits =>
        cases hroom
        simp only [Pass.runs_bind, Pass.runs_get]
        have hwritten : Done arena types outer first parameter.index between between := by
          rw [← hi]
          exact done_written hw (ha.mono (Nat.le_refl _) (by omega))
            (hu.mono (Nat.le_refl _) (by omega))
        have hmeasures : (Access.parameter size draft.frame.parametersSize
            between.level).Measures types parameter := ⟨type, htype, hsize⟩
        refine (recordAccess_runs hk rfl hmeasures
          (ha _ (by omega) (by omega))).mono fun _ placed hp => ?_
        have haccesses := hwritten.accesses.trans (by omega) (Nat.le_succ _) hp.accesses
        have hframes := hwritten.frames.trans (by omega) (Nat.le_succ _)
          (frames_skip hk rfl (hu _ (by omega) (by omega)))
        have hplaced : Placed arena outer first (parameter.index + 1)
            (Arrives between.level draft.frame.parametersSize
              (draft.frame.parametersSize + size)) placed.layout := by
          have hnone : placed.layout.accesses.Unset first parameter.index := fun other hi hl =>
            (hp.accesses.outside other (.inl hl)).trans (ha other hi (by omega))
          have hone : Arrives between.level draft.frame.parametersSize
              (draft.frame.parametersSize + size)
              (.parameter size draft.frame.parametersSize between.level) :=
            ⟨rfl, Int.le_refl _, by omega⟩
          exact .unset_append hnone (.single hp.stored hone)
        refine (ih ho (fun other hm' => hm other (List.mem_cons_of_mem _ hm'))
          ((ha.mono (by omega) (Nat.le_refl _)).behind haccesses)
          (hp.frames ▸ hu.mono (by omega) (Nat.le_refl _))).mono fun wider after hr => ?_
        have hle : draft.frame.parametersSize ≤ draft.frame.parametersSize + size :=
          Nat.le_add_right _ _
        refine ⟨hr.level.trans hp.level, hr.drafts.trans hp.drafts,
          haccesses.trans (by omega) hol hr.accesses,
          hframes.trans (by omega) hol (hp.frames ▸ hr.frames),
          hr.unframed.trans hp.frames, hr.frameLevel, hr.locals,
          Nat.le_trans hle hr.parameters, fun _ => hr.fits hfits, ?_⟩
        have hfront := hplaced.congr fun other _ hl _ => hr.accesses.outside other (.inl hl)
        refine (hfront.append hr.placed fun _ _ => Arrives.apart).mono fun access h => ?_
        rcases h with h | h
        · exact h.mono (Nat.le_refl _) hr.parameters
        · exact (hp.level ▸ h).mono hle (Nat.le_refl _)
      · cases hroom

/-- Opening a frame lays out the parameters behind the static link. -/
theorem openFrame_runs {name : String} {parameters : List NodeId}
    (hf : arena.Forest first (parameters.map (.parameter, ·)) last)
    (hm : ∀ parameter ∈ parameters, Measured types Ty.argumentSize? parameter)
    (ha : state.layout.accesses.Unset first last) (hu : state.layout.frames.Unset first last) :
    (openFrame arena types id name parameters).Runs (Pass.Reports Refuses) state fun larger after =>
      ∃ label, Receives arena types outer first last
        ⟨⟨label, state.level, wordSize, 0, 0⟩⟩ larger state after := by
  simp only [openFrame, Pass.runs_bind]
  have hlabel : (functionLabel name).Runs (Pass.Reports Refuses) state fun _ after =>
      after.level = state.level ∧ after.drafts = state.drafts ∧ after.layout = state.layout := by
    simp only [functionLabel, Pass.runs_bind, Pass.runs_get]
    split <;> simp
  refine hlabel.mono fun label labelled hl => ?_
  obtain ⟨hlevel, hdrafts, hlayout⟩ := hl
  simp only [Pass.runs_get]
  split
  · simp [fail, Refuses]
  · next offset draft hroom =>
    have hdraft : draft = ⟨⟨label, state.level, wordSize, 0, 0⟩⟩ := by
      have hroom : some ((0 : Int), (⟨⟨label, labelled.level, 0 + wordSize, 0, 0⟩⟩ : FrameDraft)) =
          some (offset, draft) := hroom
      cases hroom
      rw [hlevel, Nat.zero_add]
    subst hdraft
    have hrun : (layOutParameters arena types name ⟨⟨label, state.level, wordSize, 0, 0⟩⟩
        parameters).Runs (Pass.Reports Refuses) labelled fun larger after =>
          Receives arena types outer first last ⟨⟨label, state.level, wordSize, 0, 0⟩⟩ larger
            labelled after :=
      layOutParameters_runs hf hm (hlayout ▸ ha) (hlayout ▸ hu)
    refine hrun.mono fun larger after h => ⟨label, ?_⟩
    exact { h with
      level := h.level.trans hlevel
      drafts := h.drafts.trans hdrafts
      accesses := hlayout ▸ h.accesses
      frames := hlayout ▸ h.frames
      unframed := hlayout ▸ h.unframed
      placed := hlevel ▸ h.placed }

/-- The bytes of the arguments of a call are summed up. -/
theorem argumentBytes_runs {callee : String} {size : Nat} {arguments : List NodeId}
    (hm : ∀ argument ∈ arguments, Measured types Ty.argumentSize? argument) :
    (argumentBytes arena types id callee size arguments).Runs (Pass.Reports Refuses) state
      fun _ after => after = state := by
  induction arguments generalizing size with
  | nil => simp [argumentBytes]
  | cons argument others ih =>
    simp only [argumentBytes, Pass.runs_bind]
    refine (measured_runs (hm argument List.mem_cons_self)).mono fun bytes between heq => ?_
    obtain ⟨rfl, _⟩ := heq
    split
    · exact ih fun other hm' => hm other (List.mem_cons_of_mem _ hm')
    · simp [fail, Refuses]

/-- The places whose nodes are visited: types keep nothing, and parameters are laid out with their
function. -/
def isSwept : Place → Bool
  | .definitions | .definition | .expression | .counter => true
  | .type | .parameter => false

section Node

variable {visit : NodeId → LayOut Unit} {kind : NodeKind} (ht : arena.IsTree)
  (hsized : Sized arena types) (hin : id.index < arena.size) (he : arena.Encloses outer id)
  (hvisit : ∀ place below inner, below.index < id.index → isSwept place = true →
    arena.Encloses inner below →
    (sweep arena types inner).Visits arena (Pass.Reports Refuses) visit place below)

include hvisit he

/-- A node without access and frame is visited by visiting the forest below it. -/
theorem plain_runs (hk : arena.kind? id = some kind) (hv : kind.keepsValue = false)
    (hn : kind.isFunction = false) (hf : arena.Forest first kind.places id.index)
    (hp : ∀ member ∈ kind.places, isSwept member.1 = true)
    (hr : Ready arena outer first (id.index + 1) state) :
    Pass.Runs (Pass.Reports Refuses) ((kind.places.map Prod.snd).forM visit) state fun _ after =>
      Done arena types outer first (id.index + 1) state after := by
  have hready := (sweep arena types outer).ready_front hf.le (Nat.le_succ _) hr
  have hrun := (sweep arena types outer).runs_forM hf (fun place below hm => by
    obtain ⟨_, _, _, hl⟩ := hf.subtree hm
    have hbelow : below ∈ kind.children :=
      (NodeKind.mem_children_iff kind below).mpr (List.mem_map_of_mem hm)
    exact hvisit place below outer hl (hp _ hm) (he.ofOther hk hn hbelow)) hready
  exact hrun.mono fun _ after hd => done_closed hk hv hn hf.le hr hd

include ht

/-- The definitions of a where clause are laid out before the expression in front of them. -/
theorem where_runs {inner body : NodeId}
    (hk : arena.kind? id = some (.expression (.whereClause inner body)))
    (hf : arena.Forest first (NodeKind.expression (.whereClause inner body)).places id.index)
    (hr : Ready arena outer first (id.index + 1) state) :
    Pass.Runs (Pass.Reports Refuses) ((Expression.whereClause inner body).children.forM visit) state
      fun _ after => Done arena types outer first (id.index + 1) state after := by
  simp only [NodeKind.places, Arena.forest_cons_iff, Arena.forest_nil_iff] at hf
  obtain ⟨hbody, hinner, hend⟩ := hf
  have hbl := hbody.le
  have hil := hinner.le
  simp only [Expression.children, List.forM_eq_forM, List.forM_cons, List.forM_nil,
    Pass.runs_bind, Pass.runs_pure]
  have hready : Ready arena outer (body.index + 1) (inner.index + 1) state :=
    { hr with
      accesses := hr.accesses.mono (by omega) (by omega)
      frames := hr.frames.mono (by omega) (by omega) }
  refine (hvisit .definitions inner outer (by omega) rfl
    (he.ofExpression hk (by simp [Expression.children])) _ hinner state hready).mono
      fun _ listed hl => ?_
  have hbodyReady : Ready arena outer first (body.index + 1) listed :=
    { balanced := hl.drafts.length_eq.trans (hr.balanced.trans hl.level.symm)
      level := hl.level ▸ hr.level
      addressable := hl.drafts.addressable hr.addressable
      accesses := (hr.accesses.mono (Nat.le_refl _) (by omega)).front hl.accesses
      frames := (hr.frames.mono (Nat.le_refl _) (by omega)).front hl.frames }
  refine (hvisit .expression body outer (by omega) rfl
    (he.ofExpression hk (by simp [Expression.children])) _ hbody listed hbodyReady).mono
      fun _ after ha => ?_
  refine done_closed hk rfl rfl (by omega) hr ?_
  rw [← hend]
  refine Done.trans_back (by omega) (by omega) (fun {owner node} hf hl hw => ?_) hl ha
  obtain ⟨_, kind, hko, _, _⟩ := hw.isFunction
  obtain ⟨_, _, hs⟩ := ht.exists_subtree hko
  have hstart := hinner.start_le hs hf (Nat.le_of_lt_succ hl)
  have hinside := (hw.inside ht hs).1
  omega

omit ht
include hsized hin

/-- A call is laid out: its arguments, then room for them. -/
theorem call_runs {callee : String} {arguments : List NodeId}
    (hk : arena.kind? id = some (.expression (.call callee arguments)))
    (hf : arena.Forest first (NodeKind.expression (.call callee arguments)).places id.index)
    (hr : Ready arena outer first (id.index + 1) state) :
    (layOutCall arena bindings types visit id callee arguments).Runs (Pass.Reports Refuses) state
      fun _ after => Done arena types outer first (id.index + 1) state after := by
  have hrun := plain_runs he hvisit hk rfl rfl hf
    (by simp [NodeKind.places, Expression.children, isSwept]) hr
  have harguments : ((NodeKind.expression (.call callee arguments)).places.map Prod.snd) =
      arguments := by
    simp [NodeKind.places, Expression.children, Function.comp_def]
  rw [harguments] at hrun
  simp only [layOutCall, Pass.runs_bind]
  refine hrun.mono fun _ visited hv => ?_
  have hcall : arena.expression? id = some (.call callee arguments) := by
    simp [Arena.expression?, hk]
  have hmeasured := hsized.argument hin hcall
  refine (argumentBytes_runs hmeasured).mono fun bytes after heq => ?_
  subst heq
  simp only [reserveArguments, Pass.runs_modify]
  cases hd : after.drafts with
  | nil => exact hv
  | cons draft others =>
    let reserved : State := { after with drafts := draft.reserveArguments bytes :: others }
    have hdeepens : Deepens after.drafts reserved.drafts := by
      rw [hd]
      exact ⟨rfl, rfl, rfl, rfl, Nat.le_refl _, fun h => h⟩
    have hheld : reserved.held = after.held := by
      simp [State.held, reserved, hd, FrameDraft.reserveArguments]
    exact { hv with
      drafts := hv.drafts.trans hdeepens
      placed := by
        change Placed arena outer first _ (Between state.level state.held reserved.held) _
        rw [hheld]
        exact hv.placed }

include ht

omit hsized hin hvisit in
/-- A function is framed by its parameters and the locals of its body. -/
theorem framed_of_placed {frame : Frame} {level : Nat} (hs : arena.Subtree place first id)
    (hlevel : arena.Level outer level) (hframe : frame.level = level + 1)
    (hlocals : frame.localsSize + 2 * wordSize ≤ maxObjectSize)
    (hlink : wordSize ≤ frame.parametersSize)
    (hparameters : frame.parametersSize ≤ maxObjectSize)
    (hsignature : Placed arena (some id) first middle
      (Arrives frame.level wordSize frame.parametersSize) layout)
    (hbody : Placed arena (some id) middle id.index (Between frame.level 0 frame.localsSize)
      layout) : Framed arena layout id frame := by
  have hall := hsignature.append hbody fun _ _ => Arrives.apart_between
  have hinside : ∀ {node access}, KeptIn arena (some id) 0 id.index layout node access →
      KeptIn arena (some id) first id.index layout node access := by
    rintro node access ⟨_, hl, henc, ha⟩
    exact ⟨(henc.inside ht hs).1, hl, henc, ha⟩
  refine ⟨hframe ▸ .inside he hlevel, hlocals, hlink, hparameters, fun h => ?_,
    fun h h' hd => hall.apart (hinside h) (hinside h') hd⟩
  rcases hall.slot (hinside h) with hfits | hfits
  · cases ‹Access› <;> simp only [Arrives] at hfits
    exact hfits
  · cases ‹Access› <;> simp only [Between] at hfits
    · omega
    · obtain ⟨_, ht, hl, hr⟩ := hfits
      exact ⟨ht, hl, by simpa using hr⟩

omit hsized hin hvisit in
/-- Behind a function all is as before, but for what stands in it and its frame. -/
theorem done_function {kind : NodeKind} (hs : arena.Subtree place first id)
    (hk : arena.kind? id = some kind) (hn : kind.isFunction = true)
    (hr : Ready arena outer first (id.index + 1) state) (hlevel : after.level = state.level)
    (hdrafts : after.drafts = state.drafts)
    (haccesses : NodeTable.Fills first id.index (AccessRight arena types) state.layout.accesses
      after.layout.accesses)
    (hframes : NodeTable.Fills first (id.index + 1) (FrameRight arena) state.layout.frames
      after.layout.frames)
    (hframed : ∀ {other frame}, first ≤ other.index → other.index < id.index + 1 →
      after.layout.frames.get? other = some frame → Framed arena after.layout other frame) :
    Done arena types outer first (id.index + 1) state after := by
  have hle := hs.le
  have hnone : after.layout.accesses.Unset id.index (id.index + 1) := fun other hf hl =>
    (haccesses.outside other (.inr hf)).trans (hr.accesses other (by omega) hl)
  refine ⟨hlevel, hdrafts ▸ .refl _, haccesses.trans hle (Nat.le_succ _) (.skip hnone ?_), hframes,
    ?_, hframed⟩
  · intro other hf hl
    obtain rfl : other = id := NodeId.eq_of_index (by omega)
    refine ⟨?_, by simp⟩
    cases hv : kind.keepsValue with
    | false => simp [hk, hv]
    | true => cases hn.symm.trans (NodeKind.isFunction_of_keepsValue hv)
  · have hempty : ∀ {node access},
        ¬KeptIn arena outer first (id.index + 1) after.layout node access := by
      rintro node access ⟨hf, hl, henc, ha⟩
      rcases Nat.lt_or_ge node.index id.index with hlt | hge
      · exact he.not_inside ht hs hk hn hf hlt henc
      · cases (hnone node hge hl).symm.trans ha
    exact ⟨fun h => absurd h hempty, fun h => absurd h hempty⟩

section Function

variable {label : Label} {start : Nat} {draft built : FrameDraft} {opened : State}
  {others : List FrameDraft}
  (hr : Ready arena outer first (id.index + 1) state)
  (ho : Receives arena types (some id) first middle ⟨⟨label, state.level + 1, wordSize, 0, 0⟩⟩
    draft { state with level := state.level + 1 } opened)
  (hpl : first ≤ middle) (hrl : middle ≤ start)

include hr ho hpl hrl

omit ht hsized hin hvisit in
/-- Behind the signature of a function its body can be visited. -/
theorem body_ready (hresult : Done arena types (some id) middle start opened opened) :
    Ready arena (some id) start id.index { opened with drafts := draft :: opened.drafts } := by
  have hdrafts : opened.drafts = state.drafts := ho.drafts
  have hlevel : opened.level = state.level + 1 := ho.level
  have haccesses := ho.accesses.trans hpl hrl hresult.accesses
  have hframes := ho.frames.trans hpl hrl hresult.frames
  refine ⟨?_, ?_, ?_, (hr.accesses.mono (by omega) (by omega)).behind haccesses,
    (hr.frames.mono (by omega) (by omega)).behind hframes⟩
  · simp only [List.length_cons, hdrafts, hlevel, hr.balanced]
  · change arena.Level (some id) opened.level
    rw [hlevel]
    exact .inside he hr.level
  · intro found hfound
    cases hfound
    have hsmall : 0 + 2 * wordSize ≤ maxObjectSize := by decide
    rw [ho.locals]
    exact hsmall

omit hsized hin hvisit in
/-- Behind its body a function is framed, and the frames around it are the innermost ones again. -/
theorem function_framed (hs : arena.Subtree place first id) (hbl : start ≤ id.index)
    (ha : Done arena types (some id) start id.index { opened with drafts := draft :: opened.drafts }
      after) (hd : after.drafts = built :: others) :
    others = state.drafts ∧ Framed arena after.layout id built.frame := by
  have hdeepens := ha.drafts
  simp only [hd, Deepens] at hdeepens
  obtain ⟨hothers, _, hbuiltLevel, hbuiltParameters, _, hbuiltFits⟩ := hdeepens
  refine ⟨hothers.trans ho.drafts, ?_⟩
  have hbuilt : built.frame.level = state.level + 1 := hbuiltLevel.trans ho.frameLevel
  have hsmall : 0 + 2 * wordSize ≤ maxObjectSize := by decide
  -- the locals of the body begin at the frame pointer
  have hplaced := ha.placed
  have hheld : after.held = built.frame.localsSize := by simp only [State.held, hd]
  have hnothing : State.held { opened with drafts := draft :: opened.drafts } = 0 := ho.locals
  have hinside : opened.level = built.frame.level := ho.level.trans hbuilt.symm
  rw [hnothing, hheld] at hplaced
  simp only [hinside] at hplaced
  have hempty : after.layout.accesses.Unset middle start := fun other hf hl =>
    (ha.accesses.outside other (.inl hl)).trans
      (((hr.accesses.mono hpl (by omega)).behind ho.accesses) other hf hl)
  have hreceived := ho.placed.congr fun other _ hl _ => ha.accesses.outside other (.inl (by omega))
  simp only [← hbuilt, ← hbuiltParameters] at hreceived
  refine framed_of_placed ht he hs hr.level hbuilt (hbuiltFits ?_) ?_ ?_
    (hreceived.append_unset hempty) hplaced
  · rw [ho.locals]
    exact hsmall
  · rw [hbuiltParameters]
    exact ho.parameters
  · rw [hbuiltParameters]
    exact ho.fits (by decide : wordSize ≤ maxObjectSize)

end Function

/-- A function is laid out: its frame is open while its body is visited, and stored behind it. -/
theorem function_runs {name : String} {parameters : List NodeId} {result body : NodeId}
    (hk : arena.kind? id = some (.definition (.function name parameters result body)))
    (hf : arena.Forest first
      (NodeKind.definition (.function name parameters result body)).places id.index)
    (hr : Ready arena outer first (id.index + 1) state) :
    (layOutFunction arena types visit id name parameters body).Runs (Pass.Reports Refuses) state
      fun _ after => Done arena types outer first (id.index + 1) state after := by
  have hsubtree : arena.Subtree .definition first id :=
    Arena.subtree_iff.mpr ⟨_, hk, rfl, rfl, hf⟩
  simp only [NodeKind.places, Arena.forest_append_iff, Arena.forest_cons_iff,
    Arena.forest_nil_iff] at hf
  obtain ⟨middle, hp, hres, hbody, hend⟩ := hf
  have hpl := hp.le
  have hrl := hres.le
  have hbl := hbody.le
  have hinBody : arena.Encloses (some id) body :=
    he.ofFunction hk rfl (by simp [NodeKind.children, Definition.children])
  simp only [layOutFunction, Pass.runs_bind, Pass.runs_modify]
  have hparameters : ∀ parameter ∈ parameters, Measured types Ty.argumentSize? parameter := by
    intro parameter hm
    obtain ⟨_, hsub, _, _⟩ := hp.subtree (List.mem_map_of_mem hm)
    obtain ⟨pname, written, hd, _, _⟩ := hsub.parameter
    exact (hsized.storage (by omega) (Arena.kind?_of_definition? hd) rfl).argument
  let raised : State := { state with level := state.level + 1 }
  have hopen : (openFrame arena types id name parameters).Runs (Pass.Reports Refuses) raised
      fun draft after => ∃ label, Receives arena types (some id) first middle
        ⟨⟨label, raised.level, wordSize, 0, 0⟩⟩ draft raised after :=
    openFrame_runs hp hparameters (hr.accesses.mono (Nat.le_refl _) (by omega))
      (hr.frames.mono (Nat.le_refl _) (by omega))
  refine hopen.mono fun draft opened ho => ?_
  obtain ⟨label, ho⟩ := ho
  simp only [Pass.runs_leaving, Pass.runs_bind, Pass.runs_get, Pass.runs_pure]
  -- the result type stands behind the parameters and keeps nothing
  have hresult : Done arena types (some id) middle (result.index + 1) opened opened :=
    done_written hres ((hr.accesses.mono hpl (by omega)).behind ho.accesses)
      ((hr.frames.mono hpl (by omega)).behind ho.frames)
  have hready := body_ready he hr ho hpl (by omega) hresult
  rw [← hend] at hready
  refine (hvisit .expression body (some id) (by omega) rfl hinBody _ hbody _ hready).mono
    fun _ after ha => ?_
  rw [hend] at ha
  cases hd : after.drafts with
  | nil =>
    have hdeepens := ha.drafts
    simp [hd, Deepens] at hdeepens
  | cons built others =>
    obtain ⟨hothers, hown⟩ :=
      function_framed ht he hr ho hpl (by omega) hsubtree (by omega) ha hd
    simp only [List.head?_cons]
    have haccess := (ho.accesses.trans hpl (by omega) hresult.accesses).trans (by omega) (by omega)
      ha.accesses
    have hframe := (ho.frames.trans hpl (by omega) hresult.frames).trans (by omega) (by omega)
      ha.frames
    have hnone : after.layout.frames.get? id = none :=
      (hframe.outside id (.inr (Nat.le_refl _))).trans
        (hr.frames id (by omega) (Nat.lt_succ_self _))
    obtain ⟨frames, hstore⟩ := NodeTable.exists_store? built.frame hnone
    simp only [recordFrame, State.closed, Pass.runs_bind, Pass.runs_get, hstore, Pass.runs_set]
    refine done_function ht he hsubtree hk rfl hr ?_ ?_ haccess
      (hframe.trans (by omega) (Nat.le_succ _) (.store hstore (by simp [FrameRight, hk,
        NodeKind.isFunction]))) ?_
    · have hlevel : after.level = state.level + 1 := ha.level.trans ho.level
      simp [hlevel]
    · simp [hd, hothers]
    · intro other frame hf hl hget
      rw [NodeTable.get?_store? hstore] at hget
      split at hget
      · next hsame =>
        subst hsame
        cases hget
        exact hown.congr fun _ _ _ => rfl
      · next hother =>
        have hindex : other.index ≠ id.index := fun h => hother (NodeId.eq_of_index h)
        rcases Nat.lt_or_ge other.index (result.index + 1) with hfront | hback
        · have hstart : after.layout.frames.get? other = none := by
            rw [ha.frames.outside other (.inl hfront)]
            change opened.layout.frames.get? other = none
            rw [ho.unframed]
            exact hr.frames other hf (by omega)
          cases hstart.symm.trans hget
        · exact (ha.framed hback (by omega) hget).congr fun _ _ _ => rfl

/-- A node is visited. -/
theorem visitNode_runs (hk : arena.kind? id = some kind)
    (hf : arena.Forest first kind.places id.index)
    (hparameter : ∀ name written, kind ≠ .definition (.parameter name written))
    (htype : ∀ written, kind ≠ .type written)
    (hr : Ready arena outer first (id.index + 1) state) :
    (visitNode arena bindings types visit id).Runs (Pass.Reports Refuses) state fun _ after =>
      Done arena types outer first (id.index + 1) state after := by
  have hle := hf.le
  cases kind with
  | definitions members =>
    have hplain := plain_runs he hvisit hk rfl rfl hf (by simp [NodeKind.places, isSwept]) hr
    simpa [visitNode, hk, NodeKind.places, Function.comp_def] using hplain
  | type written => exact absurd rfl (htype written)
  | definition definition =>
    cases definition with
    | function name parameters result body =>
      simpa only [visitNode, hk] using function_runs ht hsized hin he hvisit hk hf hr
    | parameter name written => exact absurd rfl (hparameter name written)
    | var name written | type name written =>
      simp only [NodeKind.places, Arena.forest_cons_iff, Arena.forest_nil_iff] at hf
      obtain ⟨hw, hi⟩ := hf
      have hwl := hw.le
      have hwritten : Done arena types outer first id.index state state := by
        rw [← hi]
        exact done_written hw (hr.accesses.mono (Nat.le_refl _) (by omega))
          (hr.frames.mono (Nat.le_refl _) (by omega))
      simp only [visitNode, hk]
      have hrun : (Layout.place arena types id name).Runs (Pass.Reports Refuses) state
          fun _ after => Done arena types outer id.index (id.index + 1) state after :=
        place_runs hk rfl (hsized.storage hin hk rfl) hr.balanced
          (hr.accesses id hle (Nat.lt_succ_self _)) (hr.frames id hle (Nat.lt_succ_self _))
      exact hrun.mono fun _ after ha => hwritten.trans hle (Nat.le_succ _) ha
  | expression expression =>
    cases expression with
    | call callee arguments =>
      simpa only [visitNode, hk] using call_runs hsized hin he hvisit hk hf hr
    | whereClause inner body => simpa only [visitNode, hk] using where_runs ht he hvisit hk hf hr
    | binary | block | forLoop | whileLoop | name | conditional | literal | unary =>
      have hplain := plain_runs he hvisit hk rfl rfl hf
        (by simp [NodeKind.places, Expression.children, isSwept]) hr
      simpa [visitNode, hk, NodeKind.places, Expression.children, Function.comp_def] using hplain

end Node

/-- Every subtree that is visited by itself is visited as a sweep, as long as the bound on the depth
is above its root. -/
theorem visitWithin_visits (ht : arena.IsTree) (hsized : Sized arena types) :
    ∀ (fuel : Nat) (id : NodeId), id.index < fuel → id.index < arena.size → ∀ place outer,
      isSwept place = true → arena.Encloses outer id →
      (sweep arena types outer).Visits arena (Pass.Reports Refuses)
        (visitWithin arena bindings types fuel) place id := by
  intro fuel
  induction fuel with
  | zero => intro id h; omega
  | succ fuel ih =>
    intro id hid hin place outer hp he start hsub state hr
    obtain ⟨kind, hk, ha, _, hf⟩ := Arena.subtree_iff.mp hsub
    have hvisit : ∀ place below inner, below.index < id.index → isSwept place = true →
        arena.Encloses inner below →
        (sweep arena types inner).Visits arena (Pass.Reports Refuses)
          (visitWithin arena bindings types fuel) place below :=
      fun place below inner hb hp he => ih below (by omega) (by omega) place inner hp he
    simp only [visitWithin]
    refine visitNode_runs ht hsized hin he hvisit hk hf (fun name written he => ?_)
      (fun written he => ?_) hr
    · subst he
      cases place <;> simp [Place.admits, isSwept] at ha hp
    · subst he
      cases place <;> simp [Place.admits, isSwept] at ha hp

/-- Exactly the nodes that keep a value have accesses, exactly the functions have frames, and every
value is kept where it stands. -/
structure LaidOut (arena : Arena) (types : NodeTable Ty) (layout : Layout) : Prop where
  /-- Accesses belong to what keeps a value. -/
  access : ∀ id : NodeId, id.index < arena.size →
    AccessRight arena types id (layout.accesses.get? id)
  /-- Frames belong to functions. -/
  frame : ∀ id : NodeId, id.index < arena.size → FrameRight arena id (layout.frames.get? id)
  /-- What stands outside all functions has a label. -/
  outside : ∀ {id access}, arena.Encloses none id → layout.accesses.get? id = some access →
    ∃ size label, access = .global size label
  /-- What stands in a function is kept in its frame. -/
  framed : ∀ {id frame}, layout.frames.get? id = some frame → Framed arena layout id frame

namespace LaidOut

/-- Every function has a frame. -/
theorem exists_frame (h : LaidOut arena types layout)
    (hf : (arena.kind? id).any NodeKind.isFunction = true) :
    ∃ frame, layout.frames.get? id = some frame := by
  obtain ⟨kind, hk, _⟩ := Option.any_eq_true _ _ |>.mp hf
  have hright := h.frame id (Arena.index_lt_size hk)
  rw [FrameRight, hf] at hright
  exact Option.isSome_iff_exists.mp hright

/-- What stands in a function lies in its frame. -/
theorem holds (h : LaidOut arena types layout) (ht : arena.IsTree) {owner : NodeId} {frame : Frame}
    (he : arena.Encloses (some owner) id) (hf : layout.frames.get? owner = some frame)
    (ha : layout.accesses.get? id = some access) : frame.Holds access := by
  obtain ⟨_, kind, hk, _, _⟩ := he.isFunction
  obtain ⟨_, _, hs⟩ := ht.exists_subtree hk
  exact (h.framed hf).placed.slot ⟨Nat.zero_le _, (he.inside ht hs).2, he, ha⟩

end LaidOut

/-- The whole program is visited under its top-level definitions. -/
theorem visit_root_done {root : NodeId} {labels : LabelSupply} (ht : arena.IsTree)
    (hroot : arena.root = some root) (hsized : Sized arena types)
    (hs : arena.Subtree .definitions 0 root) (hsize : root.index + 1 = arena.size) :
    (visit arena bindings types root).Runs (Pass.Reports Refuses) (.initial labels) fun _ after =>
      Done arena types none 0 (root.index + 1) (.initial labels) after := by
  have hdepth := arena.size_lt_depthBound
  have hready : Ready arena none 0 (root.index + 1) (.initial labels) :=
    ⟨rfl, .outside, by simp [Addressable, State.initial], NodeTable.unset_empty,
      NodeTable.unset_empty⟩
  exact visitWithin_visits ht hsized _ root (by omega) (by omega) .definitions none rfl
    (.root hroot) 0 hs (.initial labels) hready

/-- The whole program is laid out under its top-level definitions. -/
theorem visit_root_runs {root : NodeId} {labels : LabelSupply} (ht : arena.IsTree)
    (hroot : arena.root = some root) (hsized : Sized arena types)
    (hs : arena.Subtree .definitions 0 root) (hsize : root.index + 1 = arena.size) :
    (visit arena bindings types root).Runs (Pass.Reports Refuses) (.initial labels) fun _ after =>
      LaidOut arena types after.layout := by
  refine (visit_root_done ht hroot hsized hs hsize).mono fun _ after ha => ?_
  refine ⟨fun id hid => ha.accesses.inside id (Nat.zero_le _) (by omega),
    fun id hid => ha.frames.inside id (Nat.zero_le _) (by omega), fun {id access} he hg => ?_,
    fun {id frame} hf => ?_⟩
  · have hlt : id.index < root.index + 1 := by
      rcases Nat.lt_or_ge id.index (root.index + 1) with hlt | hge
      · exact hlt
      · have hnone := ha.accesses.outside id (.inr hge)
        rw [hg] at hnone
        simp [State.initial, empty] at hnone
    have hslot := ha.placed.slot ⟨Nat.zero_le _, hlt, he, hg⟩
    cases access with
    | global size label => exact ⟨size, label, rfl⟩
    | parameter => exact hslot.elim
    | inFrame =>
      have hpositive := hslot.1
      simp [State.initial] at hpositive
  · have hlt : id.index < root.index + 1 := by
      rcases Nat.lt_or_ge id.index (root.index + 1) with hlt | hge
      · exact hlt
      · have hnone := ha.frames.outside id (.inr hge)
        rw [hf] at hnone
        simp [State.initial, empty] at hnone
    exact ha.framed (Nat.zero_le _) hlt hf

/-- Laying out a typed program stops only for a frame that is too large. -/
theorem ofArena_refuses {labels : LabelSupply} {diagnostic : Diagnostic} (h : arena.IsTree)
    (hsized : Sized arena types)
    (hl : ofArena arena bindings types labels = .error diagnostic) :
    Refuses diagnostic.fault := by
  have ⟨root, hroot, hsize, hs⟩ := h
  simp only [ofArena, hroot] at hl
  exact (visit_root_runs h hroot hsized hs hsize).of_map_error hl

/-- Laying out a typed program that was read finds all its accesses and frames, and no others. -/
theorem ofArena_laidOut {labels rest : LabelSupply} {layout : Layout} (h : arena.IsTree)
    (hsized : Sized arena types)
    (hl : ofArena arena bindings types labels = .ok (layout, rest)) :
    LaidOut arena types layout := by
  have ⟨root, hroot, hsize, hs⟩ := h
  simp only [ofArena, hroot] at hl
  obtain ⟨_, after, hlaid, he⟩ := (visit_root_runs h hroot hsized hs hsize).of_map_ok hl
  cases he
  exact hlaid

/-- The accesses of a layout belong to what keeps a value and its frames to functions, and numbers
behind the arena have neither. -/
theorem ofArena_tables {labels rest : LabelSupply} {layout : Layout} (h : arena.IsTree)
    (hsized : Sized arena types)
    (hl : ofArena arena bindings types labels = .ok (layout, rest)) (id : NodeId) :
    AccessRight arena types id (layout.accesses.get? id) ∧
      FrameRight arena id (layout.frames.get? id) := by
  have ⟨root, hroot, hsize, hs⟩ := h
  simp only [ofArena, hroot] at hl
  obtain ⟨_, after, hdone, he⟩ := (visit_root_done h hroot hsized hs hsize).of_map_ok hl
  cases he
  have hnone : ∀ id : NodeId, root.index + 1 ≤ id.index → arena.kind? id = none :=
    fun id hid => Arena.kind?_eq_none (hsize ▸ hid)
  constructor
  · refine NodeTable.Fills.everywhere hdone.accesses (fun id hid => ?_) id
    simp [AccessRight, hnone id hid]
  · refine NodeTable.Fills.everywhere hdone.frames (fun id hid => ?_) id
    simp [FrameRight, hnone id hid]

end Layout

end Pins
