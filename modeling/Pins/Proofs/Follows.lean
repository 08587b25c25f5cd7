import Pins.Diagnostic

/-!
# Comparing two passes

`Follows c before after change step step'` compares a run of a pass with a run of another one. From
states that are related by `before`, the second run does what the first one does: it ends with the
changed value, in a state that is related by `after`, or it stops with a diagnostic that is blamed
for the one of the first run. Each way of building a pass has one rule, so two passes that are built
in the same way are compared from their first step on.

The runs are compared only as far as `c` says. States of the first run may have to be `within` what
is known of the second one, say because only so many labels are known there; such states are never
left for good, so it is enough to know that a run ends within. And a diagnostic of the first run
may be one that `excuses` the second run from anything.
-/

namespace Pins.Pass

variable {σ τ α β γ δ ι : Type}

/-- How far two runs are compared. -/
structure Comparison (σ : Type) where
  /-- The states of the first run up to which the second one follows it. -/
  within : σ → Prop
  /-- The diagnostics of the first run that excuse the second one. -/
  excuses : Diagnostic → Prop
  /-- The diagnostics with which the second run may stop for one of the first. -/
  blames : Diagnostic → Diagnostic → Prop

/-- As far as some states, a second run that stops is to stop for the same fault, wherever it
lies. -/
abbrev Comparison.faultsWithin (within : σ → Prop) : Comparison σ where
  within := within
  excuses _ := False
  blames diagnostic found := found.fault = diagnostic.fault

/-- A second run that stops is to stop for the same fault, wherever it lies. -/
abbrev Comparison.faults : Comparison σ := .faultsWithin fun _ => True

/-- As far as some states, only runs that end with a value are compared. -/
abbrev Comparison.valuesWithin (within : σ → Prop) : Comparison σ where
  within := within
  excuses _ := True
  blames _ _ := True

/-- What is read is the state, and a run goes on from there. -/
theorem run_get_bind (next : σ → Pass σ α) (state : σ) :
    (get >>= next : Pass σ α) state = next state state := rfl

/-- The state in which a run ends, with or without a value. -/
def reached : EStateM.Result Diagnostic σ α → σ
  | .ok _ state => state
  | .error _ state => state

/-- The outcome of a second run is that of the first one with the value changed. -/
def Agree (c : Comparison σ) (after : σ → τ → Prop) (change : α → β) :
    EStateM.Result Diagnostic σ α → EStateM.Result Diagnostic τ β → Prop
  | .ok value state, outcome => ∃ state', outcome = .ok (change value) state' ∧ after state state'
  | .error diagnostic _, outcome => c.excuses diagnostic ∨
      ∃ found state', outcome = .error found state' ∧ c.blames diagnostic found

/-- From related states, the second pass does what the first one does. -/
structure Follows (c : Comparison σ) (before after : σ → τ → Prop) (change : α → β)
    (step : Pass σ α) (step' : Pass τ β) : Prop where
  /-- A run that ends within what is compared begins within it. -/
  within : ∀ state, c.within (reached (step state)) → c.within state
  /-- A run that ends within what is compared is followed. -/
  agree : ∀ state state', before state state' → c.within (reached (step state)) →
    Agree c after change (step state) (step' state')

namespace Follows

variable {c : Comparison σ} {before between after : σ → τ → Prop}

theorem pure (change : α → β) (value : α) :
    Follows c before before change (pure value) (pure (change value)) :=
  ⟨fun _ hw => hw, fun _ _ hs _ => ⟨_, rfl, hs⟩⟩

/-- The second parts start where the first ones end. -/
theorem bind {see : α → β} {change : γ → δ} {step : Pass σ α} {step' : Pass τ β}
    {next : α → Pass σ γ} {next' : β → Pass τ δ}
    (hs : Follows c before between see step step')
    (hn : ∀ value, Follows c between after change (next value) (next' (see value))) :
    Follows c before after change (step >>= next) (step' >>= next') := by
  have hrun : ∀ state, (step >>= next) state = EStateM.bind step next state := fun _ => rfl
  have hrun' : ∀ state, (step' >>= next') state = EStateM.bind step' next' state := fun _ => rfl
  simp only [EStateM.bind] at hrun hrun'
  constructor
  · intro state hw
    have hback := hs.within state
    rw [hrun] at hw
    cases he : step state with
    | ok value middle => exact hback (by rw [he] at hw ⊢; exact (hn value).within middle hw)
    | error diagnostic middle => exact hback (by rw [he] at hw ⊢; exact hw)
  · intro state state' hb hw
    have hfirst := hs.agree state state' hb
    rw [hrun] at hw ⊢
    rw [hrun']
    cases he : step state with
    | ok value middle =>
      rw [he] at hw hfirst
      obtain ⟨middle', he', hm⟩ := hfirst ((hn value).within middle hw)
      rw [he']
      exact (hn value).agree middle middle' hm hw
    | error diagnostic middle =>
      rw [he] at hw hfirst
      rcases hfirst hw with hx | ⟨found, middle', he', hd⟩
      · exact .inl hx
      · exact .inr ⟨found, middle', by rw [he'], hd⟩

theorem throw {change : α → β} {diagnostic found : Diagnostic}
    (h : c.excuses diagnostic ∨ c.blames diagnostic found) :
    Follows c before after change (throw diagnostic : Pass σ α) (throw found : Pass τ β) :=
  ⟨fun _ hw => hw, fun _ _ _ _ => h.imp_right fun hd => ⟨found, _, rfl, hd⟩⟩

/-- Behind an excuse, nothing is said of the second pass. -/
theorem excused {change : α → β} {diagnostic : Diagnostic} {step' : Pass τ β}
    (h : c.excuses diagnostic) :
    Follows c before after change (MonadExcept.throw diagnostic : Pass σ α) step' :=
  ⟨fun _ hw => hw, fun _ _ _ _ => .inl h⟩

theorem modify {change : σ → σ} {change' : τ → τ} (hw : ∀ state, c.within (change state) →
      c.within state)
    (h : ∀ state state', before state state' → c.within (change state) →
      after (change state) (change' state')) :
    Follows c before after (fun value => value) (modify change : Pass σ PUnit)
      (modify change' : Pass τ PUnit) :=
  ⟨hw, fun state state' hb hw => ⟨_, rfl, h state state' hb hw⟩⟩

/-- Something that is read off the states is handed on. -/
theorem read (see : α → β) (look : σ → α) (look' : τ → β) {change : γ → δ} {next : α → Pass σ γ}
    {next' : β → Pass τ δ}
    (hl : ∀ state state', before state state' → look' state' = see (look state))
    (hn : ∀ value, Follows c before after change (next value) (next' (see value))) :
    Follows c before after change (get >>= fun state => next (look state))
      (get >>= fun state' => next' (look' state')) := by
  refine ⟨fun state hw => (hn (look state)).within state hw, fun state state' hb hw => ?_⟩
  have hnext := (hn (look state)).agree state state' hb hw
  rwa [← hl state state' hb] at hnext

/-- What is changed behind two passes, however these end. -/
theorem leaving {see : α → β} {step : Pass σ α} {step' : Pass τ β} {change : σ → σ}
    {change' : τ → τ} (hw : ∀ state, c.within (change state) → c.within state)
    (h : ∀ state state', between state state' → after (change state) (change' state'))
    (hs : Follows c before between see step step') :
    Follows c before after see (Pass.leaving change step) (Pass.leaving change' step') := by
  constructor
  · intro state hstate
    refine hs.within state ?_
    unfold Pass.leaving at hstate
    cases he : step state <;> exact hw _ (by simpa only [he, reached] using hstate)
  · intro state state' hb hstate
    have hfollows := hs.agree state state' hb
    unfold Pass.leaving at hstate ⊢
    cases he : step state with
    | ok value middle =>
      rw [he] at hstate hfollows
      obtain ⟨middle', he', hm⟩ := hfollows (hw _ hstate)
      exact ⟨change' middle', by rw [he'], h _ _ hm⟩
    | error diagnostic middle =>
      rw [he] at hstate hfollows
      rcases hfollows (hw _ hstate) with hx | ⟨found, middle', he', hd⟩
      · exact .inl hx
      · exact .inr ⟨found, change' middle', by rw [he'], hd⟩

/-- A step for every member of a list follows if each of the steps does. -/
theorem forM {step : ι → Pass σ PUnit} {step' : ι → Pass τ PUnit} {members : List ι}
    (h : ∀ member ∈ members,
      Follows c before before (fun value => value) (step member) (step' member)) :
    Follows c before before (fun value => value) (members.forM step) (members.forM step') := by
  induction members with
  | nil => exact pure (fun value => value) PUnit.unit
  | cons member others ih =>
    simp only [List.forM_eq_forM, List.forM_cons] at ih ⊢
    exact (h member List.mem_cons_self).bind fun _ =>
      ih fun other ho => h other (List.mem_cons_of_mem _ ho)

/-- The values of steps for the members of a list are changed one by one. -/
theorem mapM {step : ι → Pass σ α} {step' : ι → Pass τ β} {see : α → β} {members : List ι}
    (h : ∀ member ∈ members, Follows c before before see (step member) (step' member)) :
    Follows c before before (List.map see) (members.mapM step) (members.mapM step') := by
  induction members with
  | nil => exact pure (List.map see) []
  | cons member others ih =>
    simp only [List.mapM_cons]
    refine (h member List.mem_cons_self).bind fun value => ?_
    refine (ih fun other ho => h other (List.mem_cons_of_mem _ ho)).bind fun values => ?_
    exact pure (List.map see) (value :: values)

/-- If a run that ends within what is compared keeps something, so does the one that follows. -/
theorem of_ok {see : α → β} {step : Pass σ α} {step' : Pass τ β} {state middle : σ} {state' : τ}
    {value : α} (h : Follows c before after see step step') (hb : before state state')
    (he : step state = .ok value middle) (hw : c.within middle) :
    ∃ middle', step' state' = .ok (see value) middle' ∧ after middle middle' := by
  have hagree := h.agree state state' hb
  rw [he] at hagree
  exact hagree hw

/-- What two runs end with, if the first one ends within what is compared. -/
theorem finalState {see : α → β} {step : Pass σ α} {step' : Pass τ β} {state : σ} {state' : τ}
    (h : Follows c before after see step step') (hb : before state state')
    (hw : c.within (reached (step state))) :
    (∀ middle, Pass.finalState step state = .ok middle →
      ∃ middle', Pass.finalState step' state' = .ok middle' ∧ after middle middle') ∧
    ∀ diagnostic, Pass.finalState step state = .error diagnostic → c.excuses diagnostic ∨
      ∃ found, Pass.finalState step' state' = .error found ∧ c.blames diagnostic found := by
  have hagree := h.agree state state' hb hw
  unfold Pass.finalState
  cases he : step state with
  | ok value middle =>
    rw [he] at hagree
    obtain ⟨middle', he', hm⟩ := hagree
    refine ⟨fun found hf => ?_, nofun⟩
    cases hf
    exact ⟨middle', by rw [he'], hm⟩
  | error diagnostic middle =>
    rw [he] at hagree
    refine ⟨nofun, fun found hf => ?_⟩
    cases hf
    exact hagree.imp_right fun ⟨found, _, he', hd⟩ => ⟨found, by rw [he'], hd⟩

/-- What is kept of the state with which a run ends comes from a state that the run that follows
ends with as well. -/
theorem map_ok {see : α → β} {step : Pass σ α} {step' : Pass τ β} {state : σ} {state' : τ}
    {keep : σ → γ} {kept : γ} (h : Follows c before after see step step')
    (hb : before state state') (hf : (Pass.finalState step state).map keep = .ok kept)
    (hw : ∀ value middle, step state = .ok value middle → keep middle = kept → c.within middle) :
    ∃ middle middle', keep middle = kept ∧ Pass.finalState step' state' = .ok middle' ∧
      after middle middle' := by
  unfold Pass.finalState at hf ⊢
  cases he : step state with
  | error diagnostic middle =>
    rw [he] at hf
    cases hf
  | ok value middle =>
    rw [he] at hf
    have hkept : keep middle = kept := Except.ok.inj hf
    obtain ⟨middle', he', hm⟩ := h.of_ok hb he (hw value middle he hkept)
    exact ⟨middle, middle', hkept, by rw [he'], hm⟩

end Follows

/-- Both outcomes are values, which are related, or both are diagnostics of one fault. -/
def SameOutcome (same : α → β → Prop) : Except Diagnostic α → Except Diagnostic β → Prop
  | .ok value, .ok value' => same value value'
  | .error diagnostic, .error found => found.fault = diagnostic.fault
  | _, _ => False

namespace SameOutcome

variable {same : α → β → Prop} {same' : γ → δ → Prop} {outcome : Except Diagnostic α}
  {outcome' : Except Diagnostic β}

/-- What is put together in the same way from the same outcomes has the same outcome. -/
theorem bind {next : α → Except Diagnostic γ} {next' : β → Except Diagnostic δ}
    (h : SameOutcome same outcome outcome')
    (hn : ∀ value value', outcome = .ok value → same value value' →
      SameOutcome same' (next value) (next' value')) :
    SameOutcome same' (outcome >>= next) (outcome' >>= next') := by
  cases outcome <;> cases outcome'
  · exact h
  · exact h.elim
  · exact h.elim
  · exact hn _ _ rfl h

/-- The same can be read off the same outcomes. -/
theorem map {change : α → γ} {change' : β → δ} (h : SameOutcome same outcome outcome')
    (hc : ∀ value value', same value value' → same' (change value) (change' value')) :
    SameOutcome same' (outcome.map change) (outcome'.map change') := by
  cases outcome <;> cases outcome'
  · exact h
  · exact h.elim
  · exact h.elim
  · exact hc _ _ h

end SameOutcome

/-- Both outcomes are values, which are related, or neither of them is one. -/
def SameSuccess (same : α → β → Prop) : Except Diagnostic α → Except Diagnostic β → Prop
  | .ok value, .ok value' => same value value'
  | .error _, .error _ => True
  | _, _ => False

namespace SameSuccess

variable {same : α → β → Prop} {same' : γ → δ → Prop} {outcome : Except Diagnostic α}
  {outcome' : Except Diagnostic β}

/-- Outcomes that decide one question, and are values that the question determines, are equal. -/
theorem of_decides {other : Except Diagnostic α} (good : Prop) (fits : α → Prop)
    (h : ∀ value, outcome = .ok value → good ∧ fits value)
    (he : ∀ diagnostic, outcome = .error diagnostic → ¬ good)
    (h' : ∀ value, other = .ok value → good ∧ fits value)
    (he' : ∀ diagnostic, other = .error diagnostic → ¬ good)
    (hu : ∀ value value', fits value → fits value' → value = value') :
    SameSuccess Eq outcome other := by
  cases outcome <;> cases other
  · trivial
  · exact he _ rfl (h' _ rfl).1
  · exact he' _ rfl (h _ rfl).1
  · exact hu _ _ (h _ rfl).2 (h' _ rfl).2

/-- The same can be read off what has the same success. -/
theorem map {change : α → γ} {change' : β → δ} (h : SameSuccess same outcome outcome')
    (hc : ∀ value value', same value value' → same' (change value) (change' value')) :
    SameSuccess same' (outcome.map change) (outcome'.map change') := by
  cases outcome <;> cases outcome'
  · trivial
  · exact h.elim
  · exact h.elim
  · exact hc _ _ h

/-- What has the same success as something and the same outcome as something else relates them. -/
theorem trans {last : Except Diagnostic γ} {next : β → γ → Prop} {all : α → γ → Prop}
    (h : SameSuccess same outcome outcome') (h' : SameOutcome next outcome' last)
    (ha : ∀ value middle value', same value middle → next middle value' → all value value') :
    SameSuccess all outcome last := by
  cases outcome <;> cases outcome' <;> cases last <;>
    first | exact h.elim | exact h'.elim | trivial | exact ha _ _ _ h h'

/-- What is put together in the same way from what has the same success has the same success. -/
theorem bind {next : α → Except Diagnostic γ} {next' : β → Except Diagnostic δ}
    (h : SameSuccess same outcome outcome')
    (hn : ∀ value value', outcome = .ok value → same value value' →
      SameSuccess same' (next value) (next' value')) :
    SameSuccess same' (outcome >>= next) (outcome' >>= next') := by
  cases outcome <;> cases outcome'
  · trivial
  · exact h.elim
  · exact h.elim
  · exact hn _ _ rfl h

end SameSuccess

/-- A pass that follows another one to its end has the same outcome, if nothing is excused. -/
theorem Follows.sameOutcome {before after : σ → τ → Prop} {within : σ → Prop} {see : α → β}
    {step : Pass σ α} {step' : Pass τ β} {state : σ} {state' : τ}
    (h : Follows (.faultsWithin within) before after see step step')
    (hb : before state state') (hw : within (reached (step state))) :
    SameOutcome after (Pass.finalState step state) (Pass.finalState step' state') := by
  obtain ⟨hok, herror⟩ := h.finalState hb hw
  cases hf : Pass.finalState step state with
  | ok middle =>
    obtain ⟨middle', hf', hm⟩ := hok middle hf
    rw [hf']
    exact hm
  | error diagnostic =>
    obtain ⟨found, hf', hd⟩ := (herror diagnostic hf).resolve_left id
    rw [hf']
    exact hd

end Pins.Pass
