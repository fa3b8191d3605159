import Relabel.Proofs.Maintains

namespace Relabel.Pass

variable {σ ε α β : Type}

/-- From every state that satisfies `inv`, the pass gives this result or fails with this error, and
ends in such a state again. -/
def Yields (inv : σ → Prop) (pass : Pass σ α) (result : Except PassError α) : Prop :=
  ∀ before, inv before →
    match pass.run before with
    | .ok value after => result = .ok value ∧ inv after
    | .error error after => result = .error error ∧ inv after

/-- What a run returns, or the error that it fails with. -/
def resultFrom (pass : Pass σ α) (before : σ) : Except PassError α :=
  match pass.run before with
  | .ok value _ => .ok value
  | .error error _ => .error error

namespace Yields

variable {inv : σ → Prop}

theorem resultFrom_eq {pass : Pass σ α} {result : Except PassError α}
    (yields : Yields inv pass result) {before : σ} (holds : inv before) :
    pass.resultFrom before = result ∧ inv (pass.stateAfter before) := by
  have here := yields before holds
  rw [resultFrom, stateAfter]
  generalize pass.run before = ran at here ⊢
  cases ran with
  | ok value after => exact ⟨here.1.symm, here.2⟩
  | error error after => exact ⟨here.1.symm, here.2⟩

theorem of_pure (value : α) : Yields inv (pure value) (pure value) :=
  fun _ holds => ⟨rfl, holds⟩

theorem ofExcept (wrap : ε → PassError) (result : Except ε α) :
    Yields inv (Pass.ofExcept wrap result) (result.mapError wrap) := by
  intro before holds
  cases result with
  | ok value => exact ⟨rfl, holds⟩
  | error error => exact ⟨rfl, holds⟩

theorem bind {pass : Pass σ α} {result : Except PassError α} {next : α → Pass σ β}
    {rest : α → Except PassError β} (first : Yields inv pass result)
    (second : ∀ value, result = .ok value → Yields inv (next value) (rest value)) :
    Yields inv (pass >>= next) (result >>= rest) := by
  intro before holds
  have here := first before holds
  rw [EStateM.run_bind]
  generalize pass.run before = ran at here
  cases ran with
  | ok value after =>
    obtain ⟨rfl, holds⟩ := here
    exact second value rfl after holds
  | error error after =>
    obtain ⟨rfl, holds⟩ := here
    exact ⟨rfl, holds⟩

theorem orM {first second : Pass σ Bool} {left right : Except PassError Bool}
    (one : Yields inv first left) (other : Yields inv second right) :
    Yields inv (first <||> second) (left <||> right) := by
  refine one.bind fun value _ => ?_
  cases value with
  | true => exact of_pure true
  | false => exact other

theorem anyM {p : α → Pass σ Bool} {q : α → Except PassError Bool} (list : List α)
    (each : ∀ a, Yields inv (p a) (q a)) : Yields inv (list.anyM p) (list.anyM q) := by
  induction list with
  | nil => exact of_pure false
  | cons a list ih =>
    rw [List.anyM, List.anyM]
    refine (each a).bind fun value _ => ?_
    cases value with
    | true => exact of_pure true
    | false => exact ih

/-- A run from such a state gives the result. -/
theorem eq_ok {pass : Pass σ α} {result : Except PassError α} (yields : Yields inv pass result)
    {before after : σ} {value : α} (holds : inv before) (run : pass.run before = .ok value after) :
    result = .ok value ∧ inv after := by
  have here := yields before holds
  rwa [run] at here

theorem run_eq_ok_iff {pass : Pass σ α} {result : Except PassError α}
    (yields : Yields inv pass result) {before : σ} {value : α} (holds : inv before) :
    (∃ after, pass.run before = .ok value after) ↔ result = .ok value := by
  constructor
  · intro ran
    obtain ⟨after, run⟩ := ran
    exact (yields.eq_ok holds run).1
  · intro same
    have here := yields before holds
    cases run : pass.run before with
    | ok other after =>
      rw [run, same] at here
      obtain rfl := Except.ok.inj here.1
      exact ⟨after, rfl⟩
    | error error after =>
      rw [run, same] at here
      exact nomatch here.1

end Yields

end Relabel.Pass
