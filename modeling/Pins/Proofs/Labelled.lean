import Pins.Layout
import Pins.Proofs.Forest
import Pins.Proofs.Runs

/-!
# The labels of a layout

Laying out a program labels each top-level function and each top-level variable or type with its
name, and every other function with a label of its own; nothing else gets a label (`Labelled`).

Inside a function, every visit keeps this and draws new labels only. The labels of the functions
around it are drawn before it and stored behind it, so a visit must also keep the labels of the open
frames, and must store none of the labels drawn before (`Keeps`). Behind a visit, each label that it
drew is that of a frame that is stored (`Visits`).
-/

namespace Pins.Layout

variable {arena : Arena} {bindings : NodeTable NodeId} {types : NodeTable Ty} {id : NodeId}
  {members : List NodeId} {state between after : State}

/-- A label is the name of a top-level definition. -/
def Named (arena : Arena) (members : List NodeId) (id : NodeId) (label : Label) : Prop :=
  id ∈ members ∧ ∃ definition, arena.definition? id = some definition ∧
    label = .named definition.name

/-- The labels of frames and accesses, when `next` is the next label. -/
structure Labelled (arena : Arena) (members : List NodeId) (layout : Layout) (next : Nat) :
    Prop where
  /-- A function has a name of the top level or a label that was generated. -/
  frame : ∀ {id frame}, layout.frames.get? id = some frame →
    Named arena members id frame.label ∨ ∃ number < next, frame.label = .generated number
  /-- No two functions have one generated label. -/
  once : ∀ {id other frame frame' number}, layout.frames.get? id = some frame →
    layout.frames.get? other = some frame' → frame.label = .generated number →
    frame'.label = .generated number → id = other
  /-- Only what is defined at the top level has storage under a label, which is its name. -/
  access : ∀ {id size label}, layout.accesses.get? id = some (.global size label) →
    Named arena members id label

/-- What any step keeps of a state. -/
structure Keeps (before after : State) : Prop where
  /-- The level is that of before. -/
  level : after.level = before.level
  /-- The open frames are those of before, with their labels. -/
  drafts : after.drafts.map (·.frame.label) = before.drafts.map (·.frame.label)
  /-- Labels are only taken. -/
  supply : before.labels.next ≤ after.labels.next
  /-- A frame with a label drawn before was stored before. -/
  frame : ∀ {id frame number}, after.layout.frames.get? id = some frame →
    frame.label = .generated number → number < before.labels.next →
    before.layout.frames.get? id = some frame
  /-- Frames stored before are still there. -/
  stored : ∀ {id frame}, before.layout.frames.get? id = some frame →
    after.layout.frames.get? id = some frame

/-- What a visit keeps of a state, and what it does with the labels that it draws. -/
structure Visits (before after : State) : Prop extends Keeps before after where
  /-- A label that was drawn is that of a frame. -/
  drawn : ∀ number, before.labels.next ≤ number → number < after.labels.next →
    ∃ id frame, after.layout.frames.get? id = some frame ∧ frame.label = .generated number

/-- A visit that labels rightly. -/
def Labels (arena : Arena) (members : List NodeId) (before after : State) : Prop :=
  Labelled arena members after.layout after.labels.next ∧ Visits before after

theorem Keeps.refl (state : State) : Keeps state state :=
  ⟨rfl, rfl, Nat.le_refl _, fun hf _ _ => hf, fun hf => hf⟩

theorem Keeps.trans (hf : Keeps state between) (hs : Keeps between after) : Keeps state after := by
  refine ⟨hs.level.trans hf.level, hs.drafts.trans hf.drafts, Nat.le_trans hf.supply hs.supply, ?_,
    fun hb => hs.stored (hf.stored hb)⟩
  intro id frame number ha hl hn
  exact hf.frame (hs.frame ha hl (Nat.lt_of_lt_of_le hn hf.supply)) hl hn

/-- A step that draws no label is a visit. -/
theorem Keeps.visits (h : Keeps state after) (hl : after.labels = state.labels) :
    Visits state after :=
  ⟨h, fun number hfirst hlast => absurd hlast (by rw [hl]; omega)⟩

theorem Visits.refl (state : State) : Visits state state :=
  (Keeps.refl state).visits rfl

theorem Visits.trans (hf : Visits state between) (hs : Visits between after) :
    Visits state after := by
  refine ⟨hf.toKeeps.trans hs.toKeeps, fun number hfirst hlast => ?_⟩
  rcases Nat.lt_or_ge number between.labels.next with hlt | hge
  · obtain ⟨id, frame, hframe, hl⟩ := hf.drawn number hfirst hlt
    exact ⟨id, frame, hs.stored hframe, hl⟩
  · exact hs.drawn number hge hlast

/-- More labels may be taken. -/
theorem Labelled.mono {layout : Layout} {next more : Nat} (h : Labelled arena members layout next)
    (hle : next ≤ more) : Labelled arena members layout more := by
  refine ⟨fun hf => ?_, h.once, h.access⟩
  rcases h.frame hf with hn | ⟨number, hl, he⟩
  · exact .inl hn
  · exact .inr ⟨number, Nat.lt_of_lt_of_le hl hle, he⟩

/-- A frame may be stored under a label that no other frame has, if it is a generated one. -/
theorem Labelled.storeFrame {layout : Layout} {next : Nat} {frame : Frame}
    {frames : NodeTable Frame} (h : Labelled arena members layout next)
    (hs : layout.frames.store? id frame = some frames)
    (hl : Named arena members id frame.label ∨ ∃ number < next, frame.label = .generated number)
    (hfresh : ∀ other frame' number, layout.frames.get? other = some frame' →
      frame.label = .generated number → frame'.label ≠ .generated number) :
    Labelled arena members { layout with frames } next := by
  refine ⟨fun {other found} hf => ?_, fun {other another found found' number} hf hf' hn hn' => ?_,
    h.access⟩
  · rw [NodeTable.get?_store? hs] at hf
    split at hf
    · next he => subst he; cases hf; exact hl
    · exact h.frame hf
  · rw [NodeTable.get?_store? hs] at hf hf'
    split at hf <;> split at hf'
    · next he he' => exact he.trans he'.symm
    · cases hf
      exact absurd hn' (hfresh another found' number hf' hn)
    · cases hf'
      exact absurd hn (hfresh other found number hf hn')
    · exact h.once hf hf' hn hn'

/-- A step that stops keeps every promise. -/
theorem fail_runs {α : Type} {fault : Fault} {promised : α → State → Prop} :
    (fail arena id fault).Runs Pass.Any state promised := trivial

/-- Measuring changes nothing. -/
theorem measured_keeps {sizeOf? : Ty → Option Nat} :
    (measured arena types sizeOf? id).Runs Pass.Any state fun _ after => after = state := by
  simp only [measured]
  cases types.get? id with
  | none => exact fail_runs
  | some type =>
    dsimp only
    split
    · rfl
    · exact fail_runs

/-- Summing up the bytes of arguments changes nothing. -/
theorem argumentBytes_keeps {callee : String} {size : Nat} {arguments : List NodeId} :
    (argumentBytes arena types id callee size arguments).Runs Pass.Any state
      fun _ after => after = state := by
  induction arguments generalizing size with
  | nil => rfl
  | cons argument others ih =>
    simp only [argumentBytes, Pass.runs_bind]
    refine measured_keeps.mono fun bytes found heq => ?_
    subst heq
    split
    · exact ih
    · exact fail_runs

/-- An access is stored, and nothing else; one with a label needs the right one. -/
theorem recordAccess_labels {access : Access}
    (hg : ∀ size label, access = .global size label → Named arena members id label)
    (h : Labelled arena members state.layout state.labels.next) :
    (recordAccess arena id access).Runs Pass.Any state fun _ after =>
      after.layout.frames = state.layout.frames ∧ after.labels = state.labels ∧
        Labels arena members state after := by
  simp only [recordAccess, Pass.runs_bind, Pass.runs_get]
  cases hs : state.layout.accesses.store? id access with
  | none => exact fail_runs
  | some accesses =>
    have hkeeps : Keeps state { state with layout := { state.layout with accesses } } :=
      ⟨rfl, rfl, Nat.le_refl _, fun hf _ _ => hf, fun hf => hf⟩
    refine ⟨rfl, rfl, ⟨h.frame, h.once, fun {other size label} ha => ?_⟩, hkeeps.visits rfl⟩
    rw [NodeTable.get?_store? hs] at ha
    split at ha
    · next he => subst he; exact hg size label (Option.some.inj ha)
    · exact h.access ha

/-- A variable or a type definition is kept under its name or in the innermost frame. -/
theorem place_labels {name : String}
    (hn : state.level = 0 → Named arena members id (.named name))
    (h : Labelled arena members state.layout state.labels.next) :
    (Layout.place arena types id name).Runs Pass.Any state fun _ after =>
      Labels arena members state after := by
  simp only [Layout.place, Pass.runs_bind]
  refine measured_keeps.mono fun size found heq => ?_
  subst heq
  simp only [Pass.runs_get]
  split
  · next hlevel =>
    have hglobal : ∀ size' label, Access.global size (.named name) = .global size' label →
        Named arena members id label := by
      rintro _ _ ⟨rfl, rfl⟩
      exact hn hlevel
    exact (recordAccess_labels hglobal h).mono fun _ after ha => ha.2.2
  · simp only [placeLocal, Pass.runs_bind, Pass.runs_get]
    cases hd : found.drafts with
    | nil => exact fail_runs
    | cons draft others =>
      dsimp only
      split
      · exact fail_runs
      · next offset larger hroom =>
        simp only [Pass.runs_bind, Pass.runs_set]
        -- the larger frame has the label of the one it replaces
        have hlabel : larger.frame.label = draft.frame.label := by
          simp only [FrameDraft.reserveLocal?_eq] at hroom
          split at hroom
          · cases hroom; rfl
          · cases hroom
        let filled : State := { found with drafts := larger :: others }
        have hrecord : (recordAccess arena id (.inFrame size offset found.level)).Runs Pass.Any
            filled fun _ after => after.layout.frames = filled.layout.frames ∧
              after.labels = filled.labels ∧ Labels arena members filled after :=
          recordAccess_labels (by simp) h
        have hfilled : Keeps found filled :=
          ⟨rfl, by simp [filled, hd, hlabel], Nat.le_refl _, fun hf _ _ => hf, fun hf => hf⟩
        exact hrecord.mono fun _ after ha => ⟨ha.2.2.1, (hfilled.visits rfl).trans ha.2.2.2⟩

/-- Parameters are kept in the frame of their function, whose label stays. -/
theorem layOutParameters_labels {function : String} {draft : FrameDraft} {parameters : List NodeId}
    (h : Labelled arena members state.layout state.labels.next) :
    (layOutParameters arena types function draft parameters).Runs Pass.Any state
      fun opened after => opened.frame.label = draft.frame.label ∧
        after.layout.frames = state.layout.frames ∧ after.labels = state.labels ∧
        Labels arena members state after := by
  induction parameters generalizing draft state with
  | nil => exact ⟨rfl, rfl, rfl, h, .refl state⟩
  | cons parameter others ih =>
    simp only [layOutParameters, Pass.runs_bind]
    refine measured_keeps.mono fun size found heq => ?_
    subst heq
    split
    · exact fail_runs
    · next offset larger hroom =>
      have hlabel : larger.frame.label = draft.frame.label := by
        simp only [FrameDraft.reserveParameter?_eq] at hroom
        split at hroom
        · cases hroom; rfl
        · cases hroom
      simp only [Pass.runs_bind, Pass.runs_get]
      refine (recordAccess_labels (by simp) h).mono fun _ placed hp => ?_
      obtain ⟨hframes, hlabels, hv, hk⟩ := hp
      refine (ih hv).mono fun opened after ha => ?_
      obtain ⟨hl, hf, hs, hv', hk'⟩ := ha
      exact ⟨hl.trans hlabel, hf.trans hframes, hs.trans hlabels, hv', hk.trans hk'⟩

/-- The label of a function whose frame is open: its name at the top level, and otherwise the label
that was next, which is taken. -/
def Opens (name : String) (before after : State) (label : Label) : Prop :=
  before.level = 1 ∧ label = .named name ∧ after.labels = before.labels ∨
    label = before.labels.label ∧ after.labels = before.labels.rest

/-- Opening a frame draws its label and stores no frame. -/
theorem openFrame_labels {name : String} {parameters : List NodeId}
    (h : Labelled arena members state.layout state.labels.next) :
    (openFrame arena types id name parameters).Runs Pass.Any state fun draft after =>
      Opens name state after draft.frame.label ∧
        after.layout.frames = state.layout.frames ∧
        Labelled arena members after.layout after.labels.next ∧ Keeps state after := by
  simp only [openFrame, Pass.runs_bind]
  have hlabel : (functionLabel name).Runs Pass.Any state fun label after =>
      Opens name state after label ∧ after.layout.frames = state.layout.frames ∧
        Labelled arena members after.layout after.labels.next ∧ Keeps state after := by
    simp only [functionLabel, Pass.runs_bind, Pass.runs_get]
    split
    · next hl => exact ⟨.inl ⟨hl, rfl, rfl⟩, rfl, h, .refl state⟩
    · exact ⟨.inr ⟨rfl, rfl⟩, rfl, h.mono (Nat.le_succ _), rfl, rfl, Nat.le_succ _,
        fun hf _ _ => hf, fun hf => hf⟩
  refine hlabel.mono fun label drawn hd => ?_
  obtain ⟨hopens, hframes, hv, hk⟩ := hd
  simp only [Pass.runs_get]
  split
  · exact fail_runs
  · next offset draft hroom =>
    have hstart : draft.frame.label = label := by
      simp only [FrameDraft.reserveParameter?_eq] at hroom
      split at hroom
      · cases hroom; rfl
      · cases hroom
    refine (layOutParameters_labels hv).mono fun opened after ha => ?_
    obtain ⟨hl, hf, hs, hv', hk'⟩ := ha
    refine ⟨?_, hf.trans hframes, hv', hk.trans hk'.toKeeps⟩
    rw [hl, hstart]
    rcases hopens with ⟨htop, hn, hsame⟩ | ⟨hg, hrest⟩
    · exact .inl ⟨htop, hn, hs.trans hsame⟩
    · exact .inr ⟨hg, hs.trans hrest⟩

/-- A generated label of an open frame is taken. -/
theorem Opens.next_eq {name : String} {label : Label} {number : Nat}
    (ho : Opens name state between label) (hl : label = .generated number) :
    number = state.labels.next ∧ between.labels.next = number + 1 := by
  rcases ho with ⟨_, he, _⟩ | ⟨he, hrest⟩
  · cases he.symm.trans hl
  · cases he.symm.trans hl
    exact ⟨rfl, congrArg LabelSupply.next hrest⟩

/-- A label drawn by opening a frame is that of the frame. -/
theorem Opens.drawn {name : String} {label : Label} {number : Nat}
    (ho : Opens name state between label) (hf : state.labels.next ≤ number)
    (hl : number < between.labels.next) : label = .generated number := by
  rcases ho with ⟨_, _, hsame⟩ | ⟨he, hrest⟩
  · rw [hsame] at hl
    omega
  · rw [hrest, LabelSupply.next_rest] at hl
    obtain rfl : number = state.labels.next := by omega
    exact he

/-- The label of an open frame was drawn before the body was visited, so it is that of no frame that
is stored by then. -/
theorem Opens.fresh {name : String} {label : Label} {frames : NodeTable Frame}
    (ho : Opens name state between label)
    (h : Labelled arena members state.layout state.labels.next)
    (hold : ∀ {other frame number}, frames.get? other = some frame →
      frame.label = .generated number → number < between.labels.next →
      state.layout.frames.get? other = some frame) :
    ∀ other frame number, frames.get? other = some frame → label = .generated number →
      frame.label ≠ .generated number := by
  intro other frame number hf hg hl
  obtain ⟨rfl, hnext⟩ := ho.next_eq hg
  rcases h.frame (hold hf hl (by omega)) with ⟨_, _, _, hname⟩ | ⟨number, hlt, he⟩
  · cases hname.symm.trans hl
  · cases he.symm.trans hl
    exact Nat.lt_irrefl _ hlt

/-- The label of an open frame is no label drawn before. -/
theorem Opens.not_before {name : String} {label : Label} {number : Nat}
    (ho : Opens name state between label) (hl : label = .generated number) :
    ¬number < state.labels.next := by
  obtain ⟨rfl, _⟩ := ho.next_eq hl
  exact Nat.lt_irrefl _

section Node

variable {visit : NodeId → LayOut Unit} (hvisit : ∀ below state, state.level ≠ 0 →
  Labelled arena members state.layout state.labels.next →
  (visit below).Runs Pass.Any state fun _ after => Labels arena members state after)

include hvisit

/-- Inside a function, nodes are visited one by one. -/
theorem forM_labels {ids : List NodeId} (hl : state.level ≠ 0)
    (h : Labelled arena members state.layout state.labels.next) :
    (ids.forM visit).Runs Pass.Any state fun _ after => Labels arena members state after := by
  let kept : State → Prop := fun after => Labels arena members state after
  have hk : kept state := ⟨h, .refl state⟩
  refine Pass.runs_forM (fun id _ between hb => ?_) hk
  have hlevel : between.level ≠ 0 := by rw [hb.2.level]; exact hl
  exact (hvisit id between hlevel hb.1).mono fun _ after ha => ⟨ha.1, hb.2.trans ha.2⟩

/-- A function is laid out under a label that no frame has yet. -/
theorem layOutFunction_labels {name : String} {parameters : List NodeId} {body : NodeId}
    (hn : state.level = 0 → Named arena members id (.named name))
    (h : Labelled arena members state.layout state.labels.next) :
    (layOutFunction arena types visit id name parameters body).Runs Pass.Any state
      fun _ after => Labels arena members state after := by
  simp only [layOutFunction, Pass.runs_bind, Pass.runs_modify]
  let raised : State := { state with level := state.level + 1 }
  have hopen : (openFrame arena types id name parameters).Runs Pass.Any raised fun draft after =>
      Opens name raised after draft.frame.label ∧
        after.layout.frames = raised.layout.frames ∧
        Labelled arena members after.layout after.labels.next ∧ Keeps raised after :=
    openFrame_labels h
  refine hopen.mono fun draft opened ho => ?_
  obtain ⟨hopens, hframes, hv, hk⟩ := ho
  simp only [Pass.runs_leaving, Pass.runs_bind, Pass.runs_get, Pass.runs_pure]
  have hlevel : opened.level = state.level + 1 := hk.level
  let inside : State := { opened with drafts := draft :: opened.drafts }
  refine (hvisit body inside (by simp [inside, hlevel]) hv).mono fun _ visited ha => ?_
  obtain ⟨hv', hk'⟩ := ha
  cases hd : visited.drafts with
  | nil => exact fail_runs
  | cons built others =>
    simp only [List.head?_cons, recordFrame, Pass.runs_bind, Pass.runs_get]
    have hdrafts : built.frame.label = draft.frame.label ∧
        others.map (·.frame.label) = opened.drafts.map (·.frame.label) := by
      have hkept := hk'.drafts
      simpa [inside, hd] using hkept
    have hsupply : state.labels.next ≤ visited.labels.next := Nat.le_trans hk.supply hk'.supply
    have hold : ∀ {other frame number}, visited.layout.frames.get? other = some frame →
        frame.label = .generated number → number < opened.labels.next →
        state.layout.frames.get? other = some frame := by
      intro other frame number hf hl hlt
      have hbefore : opened.layout.frames.get? other = some frame := hk'.frame hf hl hlt
      rwa [hframes] at hbefore
    have hlabel : Named arena members id built.frame.label ∨
        ∃ number < visited.labels.next, built.frame.label = .generated number := by
      rw [hdrafts.1]
      rcases hopens with ⟨htop, he, _⟩ | ⟨he, hrest⟩
      · exact .inl (he ▸ hn (by simpa [raised] using htop))
      · have hnext : opened.labels.next = state.labels.next + 1 :=
          congrArg LabelSupply.next hrest
        have htaken : opened.labels.next ≤ visited.labels.next := hk'.supply
        exact .inr ⟨state.labels.next, by omega, he⟩
    have hopens' : Opens name raised opened built.frame.label := hdrafts.1 ▸ hopens
    have hfresh := hopens'.fresh h hold
    split
    · next frames hs =>
      have hkept : ∀ {other frame}, visited.layout.frames.get? other = some frame →
          frames.get? other = some frame := fun hf => NodeTable.get?_of_store? hs hf
      have hbefore : ∀ {other frame}, state.layout.frames.get? other = some frame →
          visited.layout.frames.get? other = some frame := fun hf => hk'.stored (hk.stored hf)
      refine ⟨hv'.storeFrame hs hlabel hfresh, ⟨?_, ?_, hsupply, ?_, fun hf => hkept (hbefore hf)⟩,
        fun number hfirst hlast => ?_⟩
      · have hkept : visited.level = state.level + 1 := hk'.level.trans hlevel
        simp [State.closed, hkept]
      · simpa [State.closed, hd] using hdrafts.2.trans hk.drafts
      · intro other frame number hf hl hlt
        have hget := NodeTable.get?_store? hs other
        rw [hf] at hget
        split at hget
        · cases hget
          exact absurd hlt (hopens'.not_before hl)
        · exact hold hget.symm hl (Nat.lt_of_lt_of_le hlt hk.supply)
      · -- the label of the function itself, or one that was drawn in its body
        rcases Nat.lt_or_ge number opened.labels.next with hlt | hge
        · have hself := NodeTable.get?_store? hs id
          rw [if_pos rfl] at hself
          exact ⟨id, built.frame, hself, hopens'.drawn hfirst hlt⟩
        · obtain ⟨other, frame, hf, hl⟩ := hk'.drawn number hge hlast
          exact ⟨other, frame, hkept hf, hl⟩
    · exact fail_runs

/-- A call only makes room in the innermost frame. -/
theorem layOutCall_labels {callee : String} {arguments : List NodeId} (hl : state.level ≠ 0)
    (h : Labelled arena members state.layout state.labels.next) :
    (layOutCall arena bindings types visit id callee arguments).Runs Pass.Any state
      fun _ after => Labels arena members state after := by
  simp only [layOutCall, Pass.runs_bind]
  refine (forM_labels hvisit hl h).mono fun _ visited hv => ?_
  refine argumentBytes_keeps.mono fun bytes after heq => ?_
  subst heq
  simp only [reserveArguments, Pass.runs_modify]
  cases hd : after.drafts with
  | nil => exact hv
  | cons draft others =>
    have hroom : Keeps after { after with drafts := draft.reserveArguments bytes :: others } :=
      ⟨rfl, by simp [hd, FrameDraft.reserveArguments], Nat.le_refl _, fun hf _ _ => hf,
        fun hf => hf⟩
    exact ⟨hv.1, hv.2.trans (hroom.visits rfl)⟩

/-- A definition is visited: at the top level if it is a top-level one. -/
theorem visitDefinition_labels {definition : Definition}
    (hk : arena.kind? id = some (.definition definition))
    (hn : state.level = 0 → id ∈ members)
    (h : Labelled arena members state.layout state.labels.next) :
    (visitNode arena bindings types visit id).Runs Pass.Any state fun _ after =>
      Labels arena members state after := by
  have hnamed : state.level = 0 → Named arena members id (.named definition.name) :=
    fun hl => ⟨hn hl, definition, by simp [Arena.definition?, hk], rfl⟩
  simp only [visitNode, hk]
  cases definition with
  | function => exact layOutFunction_labels hvisit hnamed h
  | var | type => exact place_labels hnamed h
  | parameter => exact ⟨h, .refl state⟩

/-- Inside a function, any node is visited. -/
theorem visitNode_labels (hl : state.level ≠ 0)
    (h : Labelled arena members state.layout state.labels.next) :
    (visitNode arena bindings types visit id).Runs Pass.Any state fun _ after =>
      Labels arena members state after := by
  cases hk : arena.kind? id with
  | none => simp only [visitNode, hk]; exact fail_runs
  | some kind =>
    cases kind with
    | definition => exact visitDefinition_labels hvisit hk (fun h => absurd h hl) h
    | definitions ids => simp only [visitNode, hk]; exact forM_labels hvisit hl h
    | type => simp only [visitNode, hk]; exact ⟨h, .refl state⟩
    | expression item =>
      cases item with
      | call => simp only [visitNode, hk]; exact layOutCall_labels hvisit hl h
      | binary | block | forLoop | whileLoop | name | conditional | literal | unary | whereClause =>
        simp only [visitNode, hk]
        exact forM_labels hvisit hl h

end Node

/-- Inside a function, whatever is visited is labelled rightly. -/
theorem visitWithin_labels : ∀ (fuel : Nat) (id : NodeId) (state : State), state.level ≠ 0 →
    Labelled arena members state.layout state.labels.next →
    (visitWithin arena bindings types fuel id).Runs Pass.Any state fun _ after =>
      Labels arena members state after
  | 0, _, _, _, _ => fail_runs
  | fuel + 1, id, state, hl, h => by
    simp only [visitWithin]
    exact visitNode_labels (visitWithin_labels fuel) hl h

/-- Nothing is labelled yet. -/
theorem Labelled.empty (next : Nat) : Labelled arena members .empty next :=
  ⟨by simp [Layout.empty], by simp [Layout.empty], by simp [Layout.empty]⟩

/-- A top-level definition is labelled rightly. -/
theorem visitMember_labels (fuel : Nat) (hm : id ∈ members)
    (hd : (arena.definition? id).isSome)
    (h : Labelled arena members state.layout state.labels.next) :
    (visitWithin arena bindings types fuel id).Runs Pass.Any state fun _ after =>
      Labels arena members state after := by
  obtain ⟨definition, hf⟩ := Option.isSome_iff_exists.mp hd
  cases fuel with
  | zero => exact fail_runs
  | succ fuel =>
    exact visitDefinition_labels (visitWithin_labels fuel) (Arena.kind?_of_definition? hf)
      (fun _ => hm) h

section Root

variable {root : NodeId} {labels rest : LabelSupply} {layout : Layout}
  (hk : arena.kind? root = some (.definitions members))
  (hd : ∀ member ∈ members, (arena.definition? member).isSome)

include hk hd

/-- A program is laid out by labelling its top-level definitions rightly. -/
theorem visit_root_labels :
    (visit arena bindings types root).Runs Pass.Any (.initial labels) fun _ after =>
      Labels arena members (.initial labels) after := by
  have hmembers : ∀ fuel, (members.forM (visitWithin arena bindings types fuel)).Runs Pass.Any
      (.initial labels) fun _ after => Labels arena members (.initial labels) after := by
    intro fuel
    refine Pass.runs_forM (fun member hm before hb => ?_) ⟨.empty labels.next, .refl _⟩
    refine (visitMember_labels fuel hm (hd member hm) hb.1).mono fun _ after ha => ?_
    exact ⟨ha.1, hb.2.trans ha.2⟩
  rw [visit]
  cases hf : arena.depthBound with
  | zero => exact fail_runs
  | succ fuel =>
    simp only [visitWithin, visitNode, hk]
    exact hmembers fuel

variable (hr : arena.root = some root)
  (hl : ofArena arena bindings types labels = .ok (layout, rest))

include hr hl

/-- The layout of a program is labelled rightly. -/
theorem ofArena_labelled :
    labels.next ≤ rest.next ∧ Labelled arena members layout rest.next := by
  simp only [ofArena, hr] at hl
  obtain ⟨_, after, hv, he⟩ := (visit_root_labels hk hd).of_map_ok hl
  cases he
  exact ⟨hv.2.supply, hv.1⟩

/-- The labels that laying out takes are those of functions. -/
theorem ofArena_drawn {number : Nat} (hfirst : labels.next ≤ number) (hlast : number < rest.next) :
    ∃ id frame, layout.frames.get? id = some frame ∧ frame.label = .generated number := by
  simp only [ofArena, hr] at hl
  obtain ⟨_, after, hv, he⟩ := (visit_root_labels hk hd).of_map_ok hl
  cases he
  exact hv.2.drawn number hfirst hlast

end Root

end Pins.Layout
