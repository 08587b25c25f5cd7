import Pins.Proofs.LaidOut
import Pins.Proofs.Storage

/-!
# Tiled frames

The values of a frame leave no gap: its parameters lie one directly behind the other from the static
link on, and its locals one directly below the other from the frame pointer on (`Tiled`). So the
sizes of a frame are the exact sums of those of its values, and laying out stops for a frame that is
too large only if such a sum cannot be addressed (`ofArena_blames`).

A visit lays out the definitions of `Arena.storage`, one below the other behind the locals that the
innermost open frame has, and whatever was stored before stays (`Lays`). There is room for them as
long as no frame of the program overflows (`Roomy`).
-/

namespace Pins

/-- An argument takes a word at most. -/
theorem Ty.argumentSize?_le {type : Ty} {size : Nat} (h : type.argumentSize? = some size) :
    size ≤ wordSize := by
  cases type <;> simp only [argumentSize?, size?, Option.some.injEq] at h <;> omega

namespace Layout

variable {arena : Arena} {bindings : NodeTable NodeId} {types : NodeTable Ty} {id : NodeId}
  {accesses accesses' : NodeTable Access} {slot : Nat → Nat → Access} {sizeOf? : Ty → Option Nat}
  {start middle stop level : Nat} {list ahead rest : List NodeId} {state between after : State}

/-- The bytes of the values of a list, as far as these can be measured. -/
def bytes (types : NodeTable Ty) (sizeOf? : Ty → Option Nat) (list : List NodeId) : Nat :=
  list.foldr (fun id total => ((types.get? id).bind sizeOf?).getD 0 + total) 0

@[simp] theorem bytes_nil : bytes types sizeOf? [] = 0 := rfl

@[simp] theorem bytes_cons : bytes types sizeOf? (id :: rest) =
    ((types.get? id).bind sizeOf?).getD 0 + bytes types sizeOf? rest := rfl

@[simp] theorem bytes_append : bytes types sizeOf? (ahead ++ rest) =
    bytes types sizeOf? ahead + bytes types sizeOf? rest := by
  induction ahead with
  | nil => simp
  | cons id others ih => simp [ih, Nat.add_assoc]

/-- The value of an argument of which `start` bytes lie in front. -/
def argumentAt (level start size : Nat) : Access := .parameter size start level

/-- The value of a local of which `start` bytes lie above. -/
def localAt (level start size : Nat) : Access := .inFrame size (-((start + size : Nat) : Int)) level

/-- The values of a list are kept one directly behind the other, each in a slot of its size. -/
inductive Tiles (types : NodeTable Ty) (accesses : NodeTable Access) (slot : Nat → Nat → Access) :
    Nat → List NodeId → Nat → Prop where
  | nil (start : Nat) : Tiles types accesses slot start [] start
  | cons {start size stop : Nat} {id : NodeId} {rest : List NodeId}
      (hm : (slot start size).Measures types id) (ha : accesses.get? id = some (slot start size))
      (h : Tiles types accesses slot (start + size) rest stop) :
      Tiles types accesses slot start (id :: rest) stop

namespace Tiles

/-- A list of values is put together from two parts. -/
theorem append (hf : Tiles types accesses slot start ahead middle)
    (hr : Tiles types accesses slot middle rest stop) :
    Tiles types accesses slot start (ahead ++ rest) stop := by
  induction hf with
  | nil => exact hr
  | cons hm ha _ ih => exact .cons hm ha (ih hr)

/-- Values stay where they are as long as their accesses do. -/
theorem mono (h : Tiles types accesses slot start list stop)
    (hg : ∀ id access, accesses.get? id = some access → accesses'.get? id = some access) :
    Tiles types accesses' slot start list stop := by
  induction h with
  | nil => exact .nil _
  | cons hm ha _ ih => exact .cons hm (hg _ _ ha) ih

/-- The values take the exact sum of their bytes. -/
theorem stop_eq (h : Tiles types accesses slot start list stop)
    (hs : ∀ id start size, (slot start size).Measures types id →
      (types.get? id).bind sizeOf? = some size) :
    stop = start + bytes types sizeOf? list := by
  induction h with
  | nil => simp
  | cons hm _ _ ih =>
    rw [ih, bytes_cons, hs _ _ _ hm, Option.getD_some, Nat.add_assoc]

/-- Locals take the exact sum of their bytes. -/
theorem locals_eq (h : Tiles types accesses (localAt level) start list stop) :
    stop = start + bytes types Ty.size? list := by
  refine h.stop_eq fun id start size hm => ?_
  obtain ⟨type, ht, hsize⟩ := hm
  rw [ht]
  exact hsize

/-- Arguments take the exact sum of their bytes. -/
theorem arguments_eq (h : Tiles types accesses (argumentAt level) start list stop) :
    stop = start + bytes types Ty.argumentSize? list := by
  refine h.stop_eq fun id start size hm => ?_
  obtain ⟨type, ht, hsize⟩ := hm
  rw [ht]
  exact hsize

end Tiles

/-- The frame of a function has its parameters directly behind the static link and its locals
directly below the frame pointer, and no others. A function at the top level is labelled with its
name. -/
structure Tiled (arena : Arena) (types : NodeTable Ty) (accesses : NodeTable Access) (id : NodeId)
    (frame : Frame) : Prop where
  /-- A top-level function has its name for a label. -/
  label : frame.level = 1 → ∃ definition, arena.definition? id = some definition ∧
    frame.label = .named definition.name
  /-- The parameters lie behind the static link. -/
  parameters : Tiles types accesses (argumentAt frame.level) wordSize (arena.parametersOf id)
    frame.parametersSize
  /-- The locals lie below the frame pointer. -/
  locals : Tiles types accesses (localAt frame.level) 0 (arena.localsOf id) frame.localsSize

/-- A frame is tiled as long as the accesses of its values stay. -/
theorem Tiled.mono {frame : Frame} (h : Tiled arena types accesses id frame)
    (hg : ∀ id access, accesses.get? id = some access → accesses'.get? id = some access) :
    Tiled arena types accesses' id frame :=
  ⟨h.label, h.parameters.mono hg, h.locals.mono hg⟩

/-- The locals of a function with the two words below them, or its parameters with the static link,
cannot be addressed. -/
def Overflows (arena : Arena) (types : NodeTable Ty) (id : NodeId) : Prop :=
  maxObjectSize < bytes types Ty.size? (arena.localsOf id) + 2 * wordSize ∨
    maxObjectSize < wordSize + bytes types Ty.argumentSize? (arena.parametersOf id)

/-- The calls of a program have fewer than `2 ^ 29` arguments, so that the bytes of these can be
counted. -/
def FewArguments (arena : Arena) : Prop :=
  ∀ id callee arguments, arena.kind? id = some (.expression (.call callee arguments)) →
    arguments.length < 536870912

/-- A frame is found too large only in a program in which a function overflows, or in which a call
has too many arguments. -/
def Blames (arena : Arena) (types : NodeTable Ty) (diagnostic : Diagnostic) : Prop :=
  Refuses diagnostic.fault → (∃ id, Overflows arena types id) ∨ ¬FewArguments arena

/-- Unless a function overflows, the innermost open frame has room for the locals of a list. -/
def Roomy (arena : Arena) (types : NodeTable Ty) (list : List NodeId) (state : State) : Prop :=
  0 < state.level → (∀ id, ¬Overflows arena types id) →
    state.held + bytes types Ty.size? list + 2 * wordSize ≤ maxObjectSize

/-- What a visit does that lays out the definitions of a list. -/
structure Lays (arena : Arena) (types : NodeTable Ty) (list : List NodeId) (before after : State) :
    Prop where
  /-- The level is kept. -/
  level : after.level = before.level
  /-- The open frames are kept, but for locals and calls. -/
  drafts : Deepens before.drafts after.drafts
  /-- Accesses are kept. -/
  accesses : ∀ id access, before.layout.accesses.get? id = some access →
    after.layout.accesses.get? id = some access
  /-- In a function, the definitions lie directly below the locals of before. -/
  locals : 0 < before.level → Tiles types after.layout.accesses (localAt before.level) before.held
    list after.held
  /-- New frames are tiled. -/
  tiled : ∀ id frame, after.layout.frames.get? id = some frame →
    before.layout.frames.get? id = some frame ∨ Tiled arena types after.layout.accesses id frame

namespace Lays

theorem refl (state : State) : Lays arena types [] state state where
  level := rfl
  drafts := .refl _
  accesses _ _ h := h
  locals _ := .nil _
  tiled _ _ h := .inl h

/-- Two lists are laid out one behind the other. -/
theorem trans (hf : Lays arena types ahead state between)
    (hr : Lays arena types rest between after) : Lays arena types (ahead ++ rest) state after where
  level := hr.level.trans hf.level
  drafts := hf.drafts.trans hr.drafts
  accesses id access h := hr.accesses id access (hf.accesses id access h)
  locals hl := ((hf.locals hl).mono hr.accesses).append (hf.level ▸ hr.locals (hf.level ▸ hl))
  tiled id frame h := by
    rcases hr.tiled id frame h with hbefore | htiled
    · exact (hf.tiled id frame hbefore).imp_right fun ht => ht.mono hr.accesses
    · exact .inr htiled

/-- Behind the first part of a list there is room for the others. -/
theorem roomy (h : Lays arena types ahead state between)
    (hr : Roomy arena types (ahead ++ rest) state) : Roomy arena types rest between := by
  intro hl hsmall
  have hlevel : 0 < state.level := h.level ▸ hl
  have hroom := hr hlevel hsmall
  have hheld := (h.locals hlevel).locals_eq
  rw [bytes_append] at hroom
  omega

end Lays

/-- Where there is room for a list there is room for its beginning. -/
theorem Roomy.front (h : Roomy arena types (ahead ++ rest) state) :
    Roomy arena types ahead state := by
  intro hl hsmall
  have hroom := h hl hsmall
  rw [bytes_append] at hroom
  omega

/-- A step that stops for another fault than the size of a frame blames nothing. -/
theorem fail_blames {α : Type} {fault : Fault} {promised : α → State → Prop}
    (h : ¬Refuses fault) : (fail arena id fault).Runs (Blames arena types) state promised :=
  fun hr => absurd hr h

/-- Measuring finds the size of a node. -/
theorem measured_blames :
    (measured arena types sizeOf? id).Runs (Blames arena types) state fun size after =>
      after = state ∧ ∃ type, types.get? id = some type ∧ sizeOf? type = some size := by
  simp only [measured]
  cases ht : types.get? id with
  | none => exact fail_blames not_false
  | some type =>
    dsimp only
    cases hs : sizeOf? type with
    | none => exact fail_blames not_false
    | some size => exact ⟨rfl, type, rfl, hs⟩

/-- What a step does that stores one access. -/
structure Adds (id : NodeId) (access : Access) (before after : State) : Prop where
  /-- The level is kept. -/
  level : after.level = before.level
  /-- The open frames are kept. -/
  drafts : after.drafts = before.drafts
  /-- No frame is stored. -/
  frames : after.layout.frames = before.layout.frames
  /-- Accesses are kept. -/
  accesses : ∀ id access, before.layout.accesses.get? id = some access →
    after.layout.accesses.get? id = some access
  /-- The access is stored. -/
  stored : after.layout.accesses.get? id = some access

/-- An access is stored, and nothing else. -/
theorem recordAccess_adds {access : Access} :
    (recordAccess arena id access).Runs (Blames arena types) state fun _ after =>
      Adds id access state after := by
  simp only [recordAccess, Pass.runs_bind, Pass.runs_get]
  cases hs : state.layout.accesses.store? id access with
  | none => exact fail_blames not_false
  | some accesses =>
    refine ⟨rfl, rfl, rfl, fun other found hf => ?_, by simp [NodeTable.get?_store? hs]⟩
    have hother : other ≠ id := by
      rintro rfl
      have hnone := (NodeTable.store?_eq_none_iff state.layout.accesses other access).mpr (by
        rw [hf]
        rfl)
      cases hs.symm.trans hnone
    rw [NodeTable.get?_store? hs, if_neg hother]
    exact hf

/-- A variable or a type definition is laid out by itself. -/
theorem place_lays {name : String} (hr : Roomy arena types [id] state) :
    (Layout.place arena types id name).Runs (Blames arena types) state fun _ after =>
      Lays arena types [id] state after := by
  simp only [Layout.place, Pass.runs_bind]
  refine measured_blames.mono fun size found hm => ?_
  obtain ⟨rfl, type, htype, hsize⟩ := hm
  simp only [Pass.runs_get]
  split
  · next hlevel =>
    refine recordAccess_adds.mono fun _ after hs => ?_
    exact ⟨hs.level, hs.drafts ▸ .refl _, hs.accesses, fun hpositive => absurd hlevel (by omega),
      fun other frame h => .inl (hs.frames ▸ h)⟩
  · next hlevel =>
    simp only [placeLocal, Pass.runs_bind, Pass.runs_get]
    cases hd : found.drafts with
    | nil => exact fail_blames not_false
    | cons draft others =>
      have hheld : found.held = draft.frame.localsSize := by simp [State.held, hd]
      have hroom := hr (Nat.pos_of_ne_zero hlevel)
      rw [bytes_cons, htype, Option.bind_some, hsize, Option.getD_some, bytes_nil, hheld] at hroom
      dsimp only
      split
      · next hnone =>
        -- without room for the local, some function overflows
        refine fun _ => Classical.byContradiction fun hsmall => ?_
        have hfits := hroom fun id ho => hsmall (.inl ⟨id, ho⟩)
        simp [FrameDraft.reserveLocal?_eq] at hnone
        omega
      · next offset larger hsome =>
        simp only [FrameDraft.reserveLocal?_eq] at hsome
        split at hsome
        · next hfits =>
          cases hsome
          simp only [Pass.runs_bind, Pass.runs_set]
          refine recordAccess_adds.mono fun _ after hs => ?_
          refine ⟨hs.level, ?_, hs.accesses, fun _ => ?_, fun other frame h =>
            .inl (hs.frames ▸ h)⟩
          · rw [hs.drafts, hd]
            exact ⟨rfl, rfl, rfl, rfl, Nat.le_add_right _ _, fun _ => hfits⟩
          · have hafter : after.held = found.held + size := by
              rw [hheld]
              simp [State.held, hs.drafts]
            rw [hafter]
            refine .cons ⟨type, htype, hsize⟩ ?_ (.nil _)
            rw [hheld]
            exact hs.stored
        · cases hsome

/-- What laying out parameters does: they lie directly behind the arguments that a frame had. -/
structure Takes (types : NodeTable Ty) (parameters : List NodeId) (draft larger : FrameDraft)
    (before after : State) : Prop where
  /-- The level is kept. -/
  level : after.level = before.level
  /-- The open frames are kept. -/
  drafts : after.drafts = before.drafts
  /-- No frame is stored. -/
  frames : after.layout.frames = before.layout.frames
  /-- Accesses are kept. -/
  accesses : ∀ id access, before.layout.accesses.get? id = some access →
    after.layout.accesses.get? id = some access
  /-- The frame keeps its label. -/
  label : larger.frame.label = draft.frame.label
  /-- The frame keeps its level. -/
  frameLevel : larger.frame.level = draft.frame.level
  /-- The frame has no new locals. -/
  locals : larger.frame.localsSize = draft.frame.localsSize
  /-- The parameters are the arguments that it has more. -/
  tiles : Tiles types after.layout.accesses (argumentAt before.level) draft.frame.parametersSize
    parameters larger.frame.parametersSize

/-- Parameters are laid out one behind the other. -/
theorem layOutParameters_takes {function : String} {draft : FrameDraft} {parameters : List NodeId}
    (hr : (∀ id, ¬Overflows arena types id) →
      draft.frame.parametersSize + bytes types Ty.argumentSize? parameters ≤ maxObjectSize) :
    (layOutParameters arena types function draft parameters).Runs (Blames arena types) state
      fun larger after => Takes types parameters draft larger state after := by
  induction parameters generalizing state draft with
  | nil => exact ⟨rfl, rfl, rfl, fun _ _ h => h, rfl, rfl, rfl, .nil _⟩
  | cons parameter others ih =>
    simp only [layOutParameters, Pass.runs_bind]
    refine measured_blames.mono fun size found hm => ?_
    obtain ⟨rfl, type, htype, hsize⟩ := hm
    rw [bytes_cons, htype, Option.bind_some, hsize, Option.getD_some] at hr
    split
    · next hnone =>
      refine fun _ => Classical.byContradiction fun hsmall => ?_
      have hfits := hr fun id ho => hsmall (.inl ⟨id, ho⟩)
      simp [FrameDraft.reserveParameter?_eq] at hnone
      omega
    · next offset larger hsome =>
      simp only [FrameDraft.reserveParameter?_eq] at hsome
      split at hsome
      · cases hsome
        simp only [Pass.runs_bind, Pass.runs_get]
        refine recordAccess_adds.mono fun _ placed hp => ?_
        let longer : FrameDraft :=
          ⟨{ draft.frame with parametersSize := draft.frame.parametersSize + size }⟩
        have hothers : (layOutParameters arena types function longer others).Runs
            (Blames arena types) placed fun larger after =>
              Takes types others longer larger placed after :=
          ih fun hsmall => by
            have hroom := hr hsmall
            simp only [longer]
            omega
        refine hothers.mono fun wider after ha => ?_
        refine ⟨ha.level.trans hp.level, ha.drafts.trans hp.drafts, ha.frames.trans hp.frames,
          fun other access h => ha.accesses other access (hp.accesses other access h), ha.label,
          ha.frameLevel, ha.locals, ?_⟩
        exact .cons ⟨type, htype, hsize⟩ (ha.accesses _ _ hp.stored) (hp.level ▸ ha.tiles)
      · cases hsome

/-- What opening a frame does: it is labelled, by its name at the top level, and the parameters lie
behind the static link. -/
def Opened (types : NodeTable Ty) (name : String) (parameters : List NodeId) (draft : FrameDraft)
    (before after : State) : Prop :=
  ∃ label, (before.level = 1 → label = .named name) ∧
    Takes types parameters ⟨⟨label, before.level, wordSize, 0, 0⟩⟩ draft before after

/-- Opening a frame labels it and lays out the parameters behind the static link. -/
theorem openFrame_opened {name : String} {parameters : List NodeId}
    (hr : (∀ id, ¬Overflows arena types id) →
      wordSize + bytes types Ty.argumentSize? parameters ≤ maxObjectSize) :
    (openFrame arena types id name parameters).Runs (Blames arena types) state
      fun draft after => Opened types name parameters draft state after := by
  simp only [openFrame, Pass.runs_bind]
  have hlabel : (functionLabel name).Runs (Blames arena types) state fun label after =>
      after.level = state.level ∧ after.drafts = state.drafts ∧ after.layout = state.layout ∧
        (state.level = 1 → label = .named name) := by
    simp only [functionLabel, Pass.runs_bind, Pass.runs_get]
    split
    · exact ⟨rfl, rfl, rfl, fun _ => rfl⟩
    · next hother => exact ⟨rfl, rfl, rfl, fun hl => absurd hl hother⟩
  refine hlabel.mono fun label labelled hl => ?_
  obtain ⟨hlevel, hdrafts, hlayout, hname⟩ := hl
  simp only [Pass.runs_get]
  split
  · next hnone => cases hnone
  · next offset draft hsome =>
    have hdraft : draft = ⟨⟨label, state.level, wordSize, 0, 0⟩⟩ := by
      have hroom : some ((0 : Int), (⟨⟨label, labelled.level, 0 + wordSize, 0, 0⟩⟩ : FrameDraft)) =
          some (offset, draft) := hsome
      cases hroom
      rw [hlevel, Nat.zero_add]
    subst hdraft
    refine (layOutParameters_takes hr).mono fun larger after ha => ⟨label, hname, ?_⟩
    exact { ha with
      level := ha.level.trans hlevel
      drafts := ha.drafts.trans hdrafts
      frames := hlayout ▸ ha.frames
      accesses := hlayout ▸ ha.accesses
      tiles := hlevel ▸ ha.tiles }

/-- The bytes of few arguments are counted. -/
theorem argumentBytes_blames {callee : String} {size : Nat} {arguments : List NodeId}
    (hfew : FewArguments arena → size + wordSize * arguments.length ≤ Text.maxUnsigned) :
    (argumentBytes arena types id callee size arguments).Runs (Blames arena types) state
      fun _ after => after = state := by
  induction arguments generalizing size with
  | nil => rfl
  | cons argument others ih =>
    simp only [argumentBytes, Pass.runs_bind]
    refine measured_blames.mono fun bytes found hm => ?_
    obtain ⟨rfl, type, htype, hsize⟩ := hm
    have hword := Ty.argumentSize?_le hsize
    rw [List.length_cons, Nat.mul_succ] at hfew
    split
    · exact ih fun h => by have hcount := hfew h; omega
    · next hlarge =>
      refine fun _ => .inr fun h => hlarge ?_
      have hcount := hfew h
      omega

section Node

variable {visit : NodeId → LayOut Unit} {kind : NodeKind} (ht : arena.IsTree)
  (hvisit : ∀ below state, Roomy arena types (arena.storage below) state →
    (visit below).Runs (Blames arena types) state fun _ after =>
      Lays arena types (arena.storage below) state after)

include hvisit

/-- Nodes are visited one by one. -/
theorem forM_lays {ids : List NodeId} (hr : Roomy arena types (ids.flatMap arena.storage) state) :
    (ids.forM visit).Runs (Blames arena types) state fun _ after =>
      Lays arena types (ids.flatMap arena.storage) state after := by
  induction ids generalizing state with
  | nil => simpa using Lays.refl state
  | cons id others ih =>
    simp only [List.forM_eq_forM, List.forM_cons, Pass.runs_bind, List.flatMap_cons] at ih hr ⊢
    refine (hvisit id state hr.front).mono fun _ between hb => ?_
    exact (ih (hb.roomy hr)).mono fun _ after ha => hb.trans ha

/-- A call makes room for its arguments behind visiting them. -/
theorem layOutCall_lays {callee : String} {arguments : List NodeId}
    (hk : arena.kind? id = some (.expression (.call callee arguments)))
    (hr : Roomy arena types (arguments.flatMap arena.storage) state) :
    (layOutCall arena bindings types visit id callee arguments).Runs (Blames arena types) state
      fun _ after => Lays arena types (arguments.flatMap arena.storage) state after := by
  simp only [layOutCall, Pass.runs_bind]
  refine (forM_lays hvisit hr).mono fun _ visited hv => ?_
  have hcount : FewArguments arena →
      (if bindings.contains id then wordSize else 0) + wordSize * arguments.length ≤
        Text.maxUnsigned := by
    intro hfew
    have hlength := hfew id callee arguments hk
    simp only [wordSize, Text.maxUnsigned]
    split <;> omega
  refine (argumentBytes_blames hcount).mono fun bytes found heq => ?_
  subst heq
  simp only [reserveArguments, Pass.runs_modify]
  cases hd : found.drafts with
  | nil => exact hv
  | cons draft others =>
    have hdeepens : Deepens found.drafts (draft.reserveArguments bytes :: others) := by
      rw [hd]
      exact ⟨rfl, rfl, rfl, rfl, Nat.le_refl _, fun h => h⟩
    have hheld : State.held { found with drafts := draft.reserveArguments bytes :: others } =
        found.held := by
      simp [State.held, hd, FrameDraft.reserveArguments]
    exact { hv with
      drafts := hv.drafts.trans hdeepens
      locals := fun hl => by rw [hheld]; exact hv.locals hl }

omit hvisit in
/-- Behind its body the frame of a function is tiled. -/
theorem tiled_behind {name : String} {parameters : List NodeId} {result body : NodeId}
    {draft built : FrameDraft} {others : List FrameDraft} {opened : State}
    (hk : arena.kind? id = some (.definition (.function name parameters result body)))
    (ho : Opened types name parameters draft { state with level := state.level + 1 } opened)
    (hbody : Lays arena types (arena.storage body)
      { opened with drafts := draft :: opened.drafts } between)
    (hbuilt : between.drafts = built :: others) :
    others = state.drafts ∧ Tiled arena types between.layout.accesses id built.frame := by
  obtain ⟨label, hname, ho⟩ := ho
  have hd : arena.definition? id = some (.function name parameters result body) := by
    simp [Arena.definition?, hk]
  have hdeepens := hbody.drafts
  simp only [hbuilt, Deepens] at hdeepens
  obtain ⟨hothers, hlabel, hlevel, hparameters, _, _⟩ := hdeepens
  have hraised : opened.level = state.level + 1 := ho.level
  have hat : built.frame.level = opened.level := (hlevel.trans ho.frameLevel).trans hraised.symm
  have hlocals := hbody.locals (by simp [hraised])
  have hstart : State.held { opened with drafts := draft :: opened.drafts } = 0 := ho.locals
  have hstop : between.held = built.frame.localsSize := by simp [State.held, hbuilt]
  rw [hstart, hstop] at hlocals
  refine ⟨hothers.trans ho.drafts, fun hone => ?_, ?_, ?_⟩
  · have htop : state.level + 1 = 1 := hraised.symm.trans (hat.symm.trans hone)
    exact ⟨_, hd, hlabel.trans (ho.label.trans (hname htop))⟩
  · rw [hparameters, hat, hraised]
    simpa [Arena.parametersOf, hd] using ho.tiles.mono hbody.accesses
  · rw [hat]
    simpa [Arena.localsOf, hd] using hlocals

/-- A function keeps its definitions in a frame of its own, which is stored behind its body. -/
theorem layOutFunction_lays {name : String} {parameters : List NodeId} {result body : NodeId}
    (hk : arena.kind? id = some (.definition (.function name parameters result body))) :
    (layOutFunction arena types visit id name parameters body).Runs (Blames arena types) state
      fun _ after => Lays arena types [] state after := by
  have hfits : (∀ id, ¬Overflows arena types id) →
      bytes types Ty.size? (arena.storage body) + 2 * wordSize ≤ maxObjectSize ∧
        wordSize + bytes types Ty.argumentSize? parameters ≤ maxObjectSize := by
    intro hsmall
    have hown := hsmall id
    simp only [Overflows, Arena.localsOf, Arena.parametersOf, Arena.definition?, hk, not_or,
      Nat.not_lt] at hown
    exact hown
  simp only [layOutFunction, Pass.runs_bind, Pass.runs_modify]
  let raised : State := { state with level := state.level + 1 }
  have hopen : (openFrame arena types id name parameters).Runs (Blames arena types) raised
      fun draft after => Opened types name parameters draft raised after :=
    openFrame_opened fun hsmall => (hfits hsmall).2
  refine hopen.mono fun draft opened hopened => ?_
  obtain ⟨label, hname, ho⟩ := hopened
  simp only [Pass.runs_leaving, Pass.runs_bind, Pass.runs_get, Pass.runs_pure]
  have hroomy : Roomy arena types (arena.storage body)
      { opened with drafts := draft :: opened.drafts } := by
    intro _ hsmall
    have hstart : State.held { opened with drafts := draft :: opened.drafts } = 0 := ho.locals
    rw [hstart, Nat.zero_add]
    exact (hfits hsmall).1
  refine (hvisit body _ hroomy).mono fun _ visited hv => ?_
  cases hd : visited.drafts with
  | nil => exact fail_blames not_false
  | cons built others =>
    obtain ⟨hothers, htiled⟩ := tiled_behind hk ⟨label, hname, ho⟩ hv hd
    simp only [List.head?_cons, recordFrame, State.closed, Pass.runs_bind, Pass.runs_get]
    cases hs : visited.layout.frames.store? id built.frame with
    | none => exact fail_blames not_false
    | some frames =>
      have hdrafts : visited.drafts.drop 1 = state.drafts := by
        rw [hd, List.drop_one, List.tail_cons, hothers]
      have hlevel : visited.level - 1 = state.level := by
        have hinside : visited.level = state.level + 1 := hv.level.trans ho.level
        omega
      refine ⟨hlevel, ?_, fun other found h => hv.accesses other found (ho.accesses other found h),
        fun _ => ?_, fun other frame h => ?_⟩
      · exact hdrafts ▸ .refl _
      · simp only [State.held, hdrafts]
        exact .nil _
      · rw [NodeTable.get?_store? hs] at h
        split at h
        · next hsame =>
          subst hsame
          cases h
          exact .inr htiled
        · exact (hv.tiled other frame h).imp_left fun h => ho.frames ▸ h

include ht

/-- A node is visited. -/
theorem visitNode_lays (hr : Roomy arena types (arena.storage id) state) :
    (visitNode arena bindings types visit id).Runs (Blames arena types) state fun _ after =>
      Lays arena types (arena.storage id) state after := by
  cases hk : arena.kind? id with
  | none =>
    simp only [visitNode, hk]
    exact fail_blames not_false
  | some kind =>
    rw [ht.storage_eq hk] at hr ⊢
    simp only [visitNode, hk]
    cases kind with
    | definitions members => exact forM_lays hvisit hr
    | type => exact .refl state
    | definition item =>
      cases item with
      | function name parameters result body => exact layOutFunction_lays hvisit hk
      | var | type => exact place_lays hr
      | parameter => exact .refl state
    | expression item =>
      cases item with
      | call callee arguments => exact layOutCall_lays hvisit hk hr
      | binary | block | forLoop | whileLoop | name | conditional | literal | unary
      | whereClause => exact forM_lays hvisit hr

end Node

/-- Every node is visited with what is laid out with it. -/
theorem visitWithin_lays (ht : arena.IsTree) :
    ∀ (fuel : Nat) (id : NodeId) (state : State), Roomy arena types (arena.storage id) state →
      (visitWithin arena bindings types fuel id).Runs (Blames arena types) state fun _ after =>
        Lays arena types (arena.storage id) state after
  | 0, _, _, _ => fail_blames not_false
  | fuel + 1, _, _, hr => visitNode_lays ht (visitWithin_lays ht fuel) hr

/-- The whole program is visited, outside all functions. -/
theorem visit_root_lays {root : NodeId} {labels : LabelSupply} (ht : arena.IsTree) :
    (visit arena bindings types root).Runs (Blames arena types) (.initial labels) fun _ after =>
      ∀ id frame, after.layout.frames.get? id = some frame →
        Tiled arena types after.layout.accesses id frame := by
  have houtside : Roomy arena types (arena.storage root) (.initial labels) :=
    fun hl => absurd hl (Nat.lt_irrefl 0)
  refine (visitWithin_lays ht _ root _ houtside).mono fun _ after ha id frame hf => ?_
  rcases ha.tiled id frame hf with hbefore | htiled
  · simp [State.initial, empty] at hbefore
  · exact htiled

/-- Laying out stops for a frame that is too large only if a function overflows or a call has too
many arguments. -/
theorem ofArena_blames {labels : LabelSupply} {diagnostic : Diagnostic} (ht : arena.IsTree)
    (hl : ofArena arena bindings types labels = .error diagnostic) :
    Blames arena types diagnostic := by
  have ⟨root, hroot, _, _⟩ := ht
  simp only [ofArena, hroot] at hl
  exact (visit_root_lays ht).of_map_error hl

/-- The frames of a layout are tiled. -/
theorem ofArena_tiled {labels left : LabelSupply} {layout : Layout} {frame : Frame}
    (ht : arena.IsTree) (hl : ofArena arena bindings types labels = .ok (layout, left))
    (hf : layout.frames.get? id = some frame) : Tiled arena types layout.accesses id frame := by
  have ⟨root, hroot, _, _⟩ := ht
  simp only [ofArena, hroot] at hl
  obtain ⟨_, after, htiled, he⟩ := (visit_root_lays ht).of_map_ok hl
  cases he
  exact htiled id frame hf

end Layout

end Pins
