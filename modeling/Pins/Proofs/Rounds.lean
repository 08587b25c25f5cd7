/-!
# Truth values and rounds

Truth values are kept in words, as 0 and 1. A loop tests before every round whether there is to be
one more; `Rounds` is what a loop does as a whole, whatever its tests and rounds are made of. If the
tests and rounds of one loop follow those of another, so do the loops (`Rounds.map`,
`Rounds.lift`).
-/

namespace Pins

/-- The word for a truth value. -/
def truth (holds : Bool) : Int32 := if holds then 1 else 0

/-- A word stands for a truth value. -/
def IsTruth (word : Int32) : Prop := word = 0 ∨ word = 1

theorem isTruth_truth (holds : Bool) : IsTruth (truth holds) := by
  cases holds
  · exact .inl rfl
  · exact .inr rfl

/-- A truth value is found again from its word. -/
@[simp] theorem truth_ne_zero (holds : Bool) : (truth holds != 0) = holds := by
  cases holds <;> rfl

variable {σ τ : Type} {test : σ → Bool → σ → Prop} {round : σ → σ → Prop}
  {test' : τ → Bool → τ → Prop} {round' : τ → τ → Prop} {view : σ → τ} {good : σ → Prop}
  {before after : σ}

/-- Rounds are run until a test fails. Tests may change the state. -/
inductive Rounds (test : σ → Bool → σ → Prop) (round : σ → σ → Prop) : σ → σ → Prop where
  | done {before after : σ} (ht : test before false after) : Rounds test round before after
  | more {before tested between after : σ} (ht : test before true tested)
      (hr : round tested between) (h : Rounds test round between after) :
      Rounds test round before after

namespace Rounds

/-- What is seen of a loop is a loop, if what is seen of tests and rounds are tests and rounds. -/
theorem map (ht : ∀ {before after holds}, good before → test before holds after →
      test' (view before) holds (view after) ∧ good after)
    (hr : ∀ {before after}, good before → round before after →
      round' (view before) (view after) ∧ good after)
    (h : Rounds test round before after) (hg : good before) :
    Rounds test' round' (view before) (view after) ∧ good after := by
  induction h with
  | done htest =>
    obtain ⟨htest', hg'⟩ := ht hg htest
    exact ⟨.done htest', hg'⟩
  | more htest hround _ ih =>
    obtain ⟨htest', hg'⟩ := ht hg htest
    obtain ⟨hround', hg''⟩ := hr hg' hround
    obtain ⟨hrest, hgood⟩ := ih hg''
    exact ⟨.more htest' hround' hrest, hgood⟩

/-- A loop that is run on what is seen can be run, if its tests and rounds can. -/
theorem lift (ht : ∀ {before holds seen}, good before → test' (view before) holds seen →
      ∃ after, test before holds after ∧ view after = seen ∧ good after)
    (hr : ∀ {before seen}, good before → round' (view before) seen →
      ∃ after, round before after ∧ view after = seen ∧ good after)
    {start seen : τ} (h : Rounds test' round' start seen) (hb : view before = start)
    (hg : good before) :
    ∃ after, Rounds test round before after ∧ view after = seen ∧ good after := by
  induction h generalizing before with
  | done htest =>
    subst hb
    obtain ⟨after, htest', hseen, hg'⟩ := ht hg htest
    exact ⟨after, .done htest', hseen, hg'⟩
  | more htest hround _ ih =>
    subst hb
    obtain ⟨tested, htest', hseen, hg'⟩ := ht hg htest
    subst hseen
    obtain ⟨between, hround', hseen, hg''⟩ := hr hg' hround
    obtain ⟨after, hafter, hgood⟩ := ih hseen hg''
    exact ⟨after, .more htest' hround' hafter, hgood⟩

end Rounds

end Pins
