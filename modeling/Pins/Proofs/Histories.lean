import Mathlib.Order.Defs.Unbundled
import Pins.Proofs.Follows
import Pins.Proofs.Runs

/-!
# Histories of passes

A pass that stops keeps what it has reached, and its caller may go on from there. `reachedAll` is
the state behind a history: passes run one after the other, each from where the one before it got
to, whether that ended with a value or not. What holds behind a history and not in front of it began
to hold in one of its passes (`exists_turn`).

`Moves rel pass` says that a pass takes every state to a related one, also when it stops. For a
preorder the relation is kept by every way of building a pass.
-/

namespace Pins.Pass

variable {σ α β ι : Type}

/-- The state behind a history. -/
def reachedAll (step : ι → Pass σ α) (history : List ι) (state : σ) : σ :=
  history.foldl (fun between member => reached (step member between)) state

section

variable {state : σ} {value : α} {diagnostic : Diagnostic}

@[simp] theorem reached_ok :
    reached (.ok value state : EStateM.Result Diagnostic σ α) = state := rfl

@[simp] theorem reached_error :
    reached (.error diagnostic state : EStateM.Result Diagnostic σ α) = state := rfl

/-- A second pass starts where the first one ends with a value. -/
theorem bind_of_ok {pass : Pass σ α} {between : σ} (h : pass state = .ok value between)
    (next : α → Pass σ β) : (pass >>= next) state = next value between := by
  change EStateM.bind pass next state = _
  rw [EStateM.bind, h]

/-- A second pass does not start where the first one stops. -/
theorem bind_of_error {pass : Pass σ α} {after : σ} (h : pass state = .error diagnostic after)
    (next : α → Pass σ β) : (pass >>= next) state = .error diagnostic after := by
  change EStateM.bind pass next state = _
  rw [EStateM.bind, h]

/-- A second pass takes over where the first one ended with a value. -/
theorem reached_bind (pass : Pass σ α) (next : α → Pass σ β) (state : σ) :
    reached ((pass >>= next) state) = match pass state with
      | .ok value between => reached (next value between)
      | .error _ between => between := by
  cases hp : pass state with
  | ok value between => rw [bind_of_ok hp]
  | error diagnostic between => rw [bind_of_error hp, reached_error]

/-- What reads the state first goes on in the same state. -/
theorem reached_get_bind (next : σ → Pass σ α) (state : σ) :
    reached ((get >>= next) state) = reached (next state state) := rfl

@[simp] theorem reached_leaving (change : σ → σ) (pass : Pass σ α) (state : σ) :
    reached (leaving change pass state) = change (reached (pass state)) := by
  rw [leaving]
  cases pass state <;> rfl

end

section

variable {step : ι → Pass σ α} {history front back : List ι} {member : ι} {state : σ}

@[simp] theorem reachedAll_nil : reachedAll step [] state = state := rfl

@[simp] theorem reachedAll_cons :
    reachedAll step (member :: history) state =
      reachedAll step history (reached (step member state)) := rfl

theorem reachedAll_append :
    reachedAll step (front ++ back) state = reachedAll step back (reachedAll step front state) :=
  List.foldl_append

/-- What every pass keeps, a history keeps. -/
theorem reachedAll_kept (kept : σ → Prop)
    (h : ∀ member between, kept between → kept (reached (step member between)))
    (hk : kept state) : kept (reachedAll step history state) := by
  induction history generalizing state with
  | nil => exact hk
  | cons member history ih => exact ih (h member state hk)

/-- What holds behind a history and not in front of it began to hold in one of its passes. -/
theorem exists_turn (holds : σ → Prop) (h : holds (reachedAll step history state))
    (hn : ¬ holds state) :
    ∃ front member back, history = front ++ member :: back ∧
      ¬ holds (reachedAll step front state) ∧
        holds (reached (step member (reachedAll step front state))) := by
  induction history generalizing state with
  | nil => exact absurd h hn
  | cons member history ih =>
    by_cases turn : holds (reached (step member state))
    · exact ⟨[], member, history, rfl, hn, turn⟩
    · obtain ⟨front, later, back, rfl, hbefore, hbehind⟩ := ih h turn
      exact ⟨member :: front, later, back, rfl, hbefore, hbehind⟩

end

/-- A pass takes every state to a related one, whether it ends with a value or stops. -/
def Moves (rel : σ → σ → Prop) (pass : Pass σ α) : Prop :=
  ∀ state, rel state (reached (pass state))

namespace Moves

variable {rel wider : σ → σ → Prop} {pass : Pass σ α}

theorem mono (h : Moves rel pass) (hw : ∀ before after, rel before after → wider before after) :
    Moves wider pass :=
  fun state => hw state _ (h state)

/-- A run that ends with a value ends in a related state. -/
theorem runs (h : Moves rel pass) (state : σ) :
    pass.Runs Any state fun _ after => rel state after := by
  have hstate := h state
  unfold Runs
  cases hp : pass state with
  | ok value after => simpa only [hp, reached_ok] using hstate
  | error diagnostic after => trivial

/-- Whatever else is promised of a run that ends with a value, it ends in a related state. -/
theorem joins {allowed : Diagnostic → Prop} {promised : α → σ → Prop} {state : σ}
    (h : Moves rel pass) (hr : pass.Runs allowed state promised) :
    pass.Runs allowed state fun value after => promised value after ∧ rel state after := by
  have hstate := h state
  unfold Runs at hr ⊢
  cases hp : pass state with
  | ok value after =>
    exact ⟨by simpa only [hp] using hr, by simpa only [hp, reached_ok] using hstate⟩
  | error diagnostic after => simpa only [hp] using hr

theorem modify {change : σ → σ} (h : ∀ state, rel state (change state)) :
    Moves rel (modify change : Pass σ PUnit) := h

section

variable [IsPreorder σ rel]

theorem pure (value : α) : Moves rel (Pure.pure value : Pass σ α) := refl_of rel

theorem throw (diagnostic : Diagnostic) : Moves rel (throw diagnostic : Pass σ α) := refl_of rel

theorem get : Moves rel (MonadState.get : Pass σ σ) := refl_of rel

theorem bind {next : α → Pass σ β} (h : Moves rel pass) (hn : ∀ value, Moves rel (next value)) :
    Moves rel (pass >>= next) := by
  intro state
  have hfirst := h state
  rw [reached_bind]
  cases hp : pass state with
  | ok value between =>
    rw [hp] at hfirst
    exact trans_of rel hfirst (hn value between)
  | error diagnostic between =>
    rw [hp] at hfirst
    exact hfirst

theorem forM {step : ι → Pass σ PUnit} {members : List ι}
    (h : ∀ member ∈ members, Moves rel (step member)) : Moves rel (members.forM step) := by
  induction members with
  | nil => exact .pure PUnit.unit
  | cons member others ih =>
    simp only [List.forM_eq_forM, List.forM_cons] at ih ⊢
    exact (h member List.mem_cons_self).bind fun _ =>
      ih fun other hm => h other (List.mem_cons_of_mem _ hm)

theorem mapM {step : ι → Pass σ α} {members : List ι}
    (h : ∀ member ∈ members, Moves rel (step member)) : Moves rel (members.mapM step) := by
  induction members with
  | nil => exact .pure []
  | cons member others ih =>
    simp only [List.mapM_cons]
    refine (h member List.mem_cons_self).bind fun value => ?_
    exact (ih fun other hm => h other (List.mem_cons_of_mem _ hm)).bind fun _ => .pure _

/-- A history of passes each of which takes states to related ones does so as well. -/
theorem reachedAll {step : ι → Pass σ α} (h : ∀ member, Moves rel (step member))
    (history : List ι) (state : σ) : rel state (Pass.reachedAll step history state) :=
  reachedAll_kept _ (fun member between hr => trans_of rel hr (h member between))
    (refl_of rel state)

end

end Moves

end Pins.Pass
