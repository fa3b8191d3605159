import Mathlib.Algebra.Ring.Nat
import Relabel.Pass

namespace Relabel.Pass

variable {σ ε α β : Type}

/-- From every state that satisfies `inv`, a run that succeeds ends in such a state. What it uses up is
at most `cost` more than what it pays for. -/
def Spends (inv : σ → Prop) (used paid : σ → Nat) (cost : Nat) (pass : Pass σ α) : Prop :=
  ∀ before value after, inv before → pass.run before = .ok value after →
    inv after ∧ used after + paid before ≤ used before + paid after + cost

namespace Spends

variable {inv : σ → Prop} {used paid : σ → Nat} {cost more : Nat}

theorem of_pure (value : α) : Spends inv used paid cost (pure value : Pass σ α) := by
  intro before _ after holds run
  obtain ⟨rfl, rfl⟩ := EStateM.Result.ok.inj run
  exact ⟨holds, Nat.le_add_right _ _⟩

theorem bind {pass : Pass σ α} {next : α → Pass σ β} (first : Spends inv used paid cost pass)
    (second : ∀ value, Spends inv used paid more (next value)) :
    Spends inv used paid (cost + more) (pass >>= next) := by
  intro before value after holds run
  obtain ⟨between, middle, here, rest⟩ := run_bind_eq_ok_iff.1 run
  obtain ⟨still, bounded⟩ := first before between middle holds here
  obtain ⟨last, boundedRest⟩ := second between middle value after still rest
  exact ⟨last, by omega⟩

/-- A result that has been computed before costs nothing. -/
theorem ofExcept_bind {wrap : ε → PassError} {result : Except ε α} {next : α → Pass σ β}
    (each : ∀ value, result = .ok value → Spends inv used paid cost (next value)) :
    Spends inv used paid cost (Pass.ofExcept wrap result >>= next) := by
  intro before value after holds run
  obtain ⟨found, middle, here, rest⟩ := run_bind_eq_ok_iff.1 run
  obtain ⟨same, rfl⟩ := run_ofExcept_eq_ok_iff.1 here
  exact each found same before value after holds rest

/-- The second test is made only where the first one has failed. -/
theorem orM {first second : Pass σ Bool} (one : Spends inv used paid cost first)
    (other : Spends inv used paid more second) :
    Spends inv used paid (cost + more) (first <||> second) := by
  refine one.bind fun value => ?_
  cases value with
  | true => exact of_pure true
  | false => exact other

theorem anyM {list : List α} {price : α → Nat} {test : α → Pass σ Bool}
    (each : ∀ a ∈ list, Spends inv used paid (price a) (test a)) :
    Spends inv used paid (list.map price).sum (list.anyM test) := by
  induction list with
  | nil => exact of_pure false
  | cons a list ih =>
    rw [List.map_cons, List.sum_cons, List.anyM]
    refine (each a List.mem_cons_self).bind fun value => ?_
    cases value with
    | true => exact of_pure true
    | false => exact ih fun other inside => each other (List.mem_cons_of_mem a inside)

end Spends

end Relabel.Pass
