import Pins.Diagnostic

/-!
# What a pass can end with

`Runs allowed pass state promised` says how a pass ends when it starts in a state: with a value and
a state as promised, or with a diagnostic that is allowed. Each way of building a pass has one
equation for it, so a statement about a pass is taken apart from its first step on. A pass that is
allowed no diagnostic at all is one that always ends with a value.
-/

namespace Pins.Pass

variable {σ α β : Type} {allowed : Diagnostic → Prop} {state : σ}

/-- From a state, a pass ends as promised or stops with a diagnostic that is allowed. -/
def Runs (allowed : Diagnostic → Prop) (pass : Pass σ α) (state : σ) (promised : α → σ → Prop) :
    Prop :=
  match pass state with
  | .ok value after => promised value after
  | .error diagnostic _ => allowed diagnostic

/-- Every diagnostic is allowed: only what a pass ends with is of interest. -/
def Any (_ : Diagnostic) : Prop := True

/-- The diagnostics that report one of some faults, wherever it lies. -/
@[simp] abbrev Reports (faults : Fault → Prop) (diagnostic : Diagnostic) : Prop :=
  faults diagnostic.fault

@[simp] theorem runs_pure {value : α} {promised : α → σ → Prop} :
    Runs allowed (pure value) state promised ↔ promised value state := Iff.rfl

/-- The second pass starts where the first one ends. -/
@[simp] theorem runs_bind {pass : Pass σ α} {next : α → Pass σ β} {promised : β → σ → Prop} :
    Runs allowed (pass >>= next) state promised ↔
      Runs allowed pass state fun value after => Runs allowed (next value) after promised := by
  simp only [Runs]
  change (match EStateM.bind pass next state with
    | .ok value after => promised value after
    | .error diagnostic _ => allowed diagnostic) ↔ _
  rw [EStateM.bind]
  cases pass state <;> rfl

@[simp] theorem runs_map {pass : Pass σ α} {change : α → β} {promised : β → σ → Prop} :
    Runs allowed (change <$> pass) state promised ↔
      Runs allowed pass state fun value after => promised (change value) after := by
  rw [map_eq_pure_bind, runs_bind]
  rfl

@[simp] theorem runs_get {promised : σ → σ → Prop} :
    Runs allowed get state promised ↔ promised state state := Iff.rfl

@[simp] theorem runs_set {next : σ} {promised : PUnit → σ → Prop} :
    Runs allowed (set next) state promised ↔ promised ⟨⟩ next := Iff.rfl

@[simp] theorem runs_modify {change : σ → σ} {promised : PUnit → σ → Prop} :
    Runs allowed (modify change) state promised ↔ promised ⟨⟩ (change state) := Iff.rfl

@[simp] theorem runs_throw {diagnostic : Diagnostic} {promised : α → σ → Prop} :
    Runs allowed (throw diagnostic : Pass σ α) state promised ↔ allowed diagnostic := Iff.rfl

/-- A change behind a pass reaches the state it ends with. -/
@[simp] theorem runs_leaving {pass : Pass σ α} {change : σ → σ} {promised : α → σ → Prop} :
    Runs allowed (leaving change pass) state promised ↔
      Runs allowed pass state fun value after => promised value (change after) := by
  simp only [Runs, leaving]
  cases pass state <;> rfl

/-- A promise may be replaced by a weaker one. -/
theorem Runs.mono {pass : Pass σ α} {promised weaker : α → σ → Prop}
    (hr : Runs allowed pass state promised)
    (hw : ∀ value after, promised value after → weaker value after) :
    Runs allowed pass state weaker := by
  unfold Runs at hr ⊢
  cases hp : pass state with
  | ok value after => exact hw _ _ (by simpa only [hp] using hr)
  | error diagnostic after => simpa only [hp] using hr

/-- What two statements promise of a pass is promised together. -/
theorem Runs.and {pass : Pass σ α} {promised promised' : α → σ → Prop}
    (h : Runs allowed pass state promised) (h' : Runs allowed pass state promised') :
    Runs allowed pass state fun value after => promised value after ∧ promised' value after := by
  unfold Runs at h h' ⊢
  cases hp : pass state with
  | ok value after => exact ⟨by simpa only [hp] using h, by simpa only [hp] using h'⟩
  | error diagnostic after => simpa only [hp] using h

/-- Whatever diagnostics are allowed, all are. -/
theorem Runs.any {pass : Pass σ α} {promised : α → σ → Prop}
    (h : Runs allowed pass state promised) : Runs Any pass state promised := by
  unfold Runs at h ⊢
  cases hp : pass state with
  | ok value after => simpa only [hp] using h
  | error diagnostic after => trivial

/-- A run that ended with a value ended as promised. -/
theorem Runs.of_ok {pass : Pass σ α} {promised : α → σ → Prop} {value : α} {after : σ}
    (hr : Runs allowed pass state promised) (hp : pass state = .ok value after) :
    promised value after := by
  simpa only [Runs, hp] using hr

/-- A run that stopped did so with an allowed diagnostic. -/
theorem Runs.of_error {pass : Pass σ α} {promised : α → σ → Prop} {diagnostic : Diagnostic}
    {after : σ} (hr : Runs allowed pass state promised)
    (hp : pass state = .error diagnostic after) : allowed diagnostic := by
  simpa only [Runs, hp] using hr

/-- Where every diagnostic is allowed, what holds of all values and states is promised of any
pass. -/
theorem Runs.of_forall {pass : Pass σ α} {promised : α → σ → Prop}
    (h : ∀ value after, promised value after) : pass.Runs Any state promised := by
  unfold Runs
  split
  · exact h _ _
  · trivial

/-- A pass that is allowed no diagnostic ends with a value. -/
theorem Runs.exists_ok {pass : Pass σ α} {promised : α → σ → Prop}
    (hr : Runs (fun _ => False) pass state promised) :
    ∃ value after, pass state = .ok value after ∧ promised value after := by
  unfold Runs at hr
  cases hp : pass state with
  | ok value after => exact ⟨value, after, rfl, by simpa only [hp] using hr⟩
  | error diagnostic after => simp only [hp] at hr

/-- What is kept of the final state of a run comes from a state as promised. -/
theorem Runs.of_map_ok {pass : Pass σ α} {promised : α → σ → Prop} {change : σ → β} {result : β}
    (hr : Runs allowed pass state promised)
    (hf : (finalState pass state).map change = .ok result) :
    ∃ value after, promised value after ∧ change after = result := by
  unfold Runs at hr
  unfold finalState at hf
  cases hp : pass state with
  | ok value after =>
    simp only [hp, Except.map, Except.ok.injEq] at hr hf
    exact ⟨value, after, hr, hf⟩
  | error diagnostic after => simp only [hp, Except.map, reduceCtorEq] at hf

/-- The diagnostic that stopped a run is an allowed one. -/
theorem Runs.of_map_error {pass : Pass σ α} {promised : α → σ → Prop} {change : σ → β}
    {diagnostic : Diagnostic} (hr : Runs allowed pass state promised)
    (hf : (finalState pass state).map change = .error diagnostic) :
    allowed diagnostic := by
  unfold Runs at hr
  unfold finalState at hf
  cases hp : pass state with
  | ok value after => simp only [hp, Except.map, reduceCtorEq] at hf
  | error found after =>
    simp only [hp, Except.map, Except.error.injEq] at hr hf
    exact hf ▸ hr

/-- Steps that agree on the members of a list do the same for the list. -/
theorem forM_congr {ι : Type} {step step' : ι → Pass σ PUnit} {members : List ι}
    (h : ∀ member ∈ members, step member = step' member) :
    members.forM step = members.forM step' := by
  induction members with
  | nil => rfl
  | cons member others ih =>
    simp only [List.forM_eq_forM, List.forM_cons] at ih ⊢
    rw [h member List.mem_cons_self, ih fun other hm => h other (List.mem_cons_of_mem _ hm)]

/-- A step for every member of a list keeps what each of the steps keeps. -/
theorem runs_forM {ι : Type} {step : ι → Pass σ PUnit} {members : List ι} {kept : σ → Prop}
    (hs : ∀ member ∈ members, ∀ state, kept state →
      Runs allowed (step member) state fun _ after => kept after) (hk : kept state) :
    Runs allowed (members.forM step) state fun _ after => kept after := by
  induction members generalizing state with
  | nil => simpa using hk
  | cons member others ih =>
    simp only [List.forM_eq_forM, List.forM_cons, runs_bind] at ih ⊢
    refine (hs member List.mem_cons_self state hk).mono fun _ after ha => ?_
    exact ih (fun other ho => hs other (List.mem_cons_of_mem _ ho)) ha

/-- A value for every member of a list is found keeping what each of the steps keeps. -/
theorem runs_mapM {ι : Type} {step : ι → Pass σ α} {members : List ι} {kept : σ → Prop}
    (hs : ∀ member ∈ members, ∀ state, kept state →
      Runs allowed (step member) state fun _ after => kept after) (hk : kept state) :
    Runs allowed (members.mapM step) state fun _ after => kept after := by
  induction members generalizing state with
  | nil => simpa using hk
  | cons member others ih =>
    simp only [List.mapM_cons, runs_bind, runs_pure]
    refine (hs member List.mem_cons_self state hk).mono fun _ between hb => ?_
    exact ih (fun other ho => hs other (List.mem_cons_of_mem _ ho)) hb

end Pins.Pass
