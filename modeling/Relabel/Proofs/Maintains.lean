import Relabel.Proofs.Tree.Listing

namespace Relabel.Pass

variable {σ τ ε α β : Type}

/-- The state that a run leaves behind, also where it fails. -/
def stateAfter (pass : Pass σ α) (before : σ) : σ :=
  match pass.run before with
  | .ok _ after => after
  | .error _ after => after

theorem stateAfter_of_ok {pass : Pass σ α} {before after : σ} {value : α}
    (run : pass.run before = .ok value after) : pass.stateAfter before = after := by
  rw [stateAfter, run]

theorem stateAfter_of_error {pass : Pass σ α} {before after : σ} {error : PassError}
    (run : pass.run before = .error error after) : pass.stateAfter before = after := by
  rw [stateAfter, run]

theorem stateAfter_bind_of_ok {pass : Pass σ α} {next : α → Pass σ β} {before middle : σ}
    {value : α} (run : pass.run before = .ok value middle) :
    (pass >>= next).stateAfter before = (next value).stateAfter middle := by
  rw [stateAfter, stateAfter, EStateM.run_bind, run]

theorem stateAfter_bind_of_error {pass : Pass σ α} {next : α → Pass σ β} {before middle : σ}
    {error : PassError} (run : pass.run before = .error error middle) :
    (pass >>= next).stateAfter before = middle := by
  rw [stateAfter, EStateM.run_bind, run]

theorem stateAfter_within (part : σ → τ) (put : τ → σ → σ) (pass : Pass τ α) (before : σ) :
    (within part put pass).stateAfter before = put (pass.stateAfter (part before)) before := by
  rw [stateAfter, run_within, stateAfter]
  cases pass.run (part before) <;> rfl

/-- From every state that satisfies `inv`, the pass ends in such a state, also where it fails. -/
def Maintains (inv : σ → Prop) (pass : Pass σ α) : Prop :=
  ∀ before, inv before → inv (pass.stateAfter before)

namespace Maintains

variable {inv : σ → Prop}

theorem of_pure (value : α) : Maintains inv (pure value : Pass σ α) :=
  fun _ holds => holds

theorem of_throw (error : PassError) : Maintains inv (throw error : Pass σ α) :=
  fun _ holds => holds

theorem of_get : Maintains inv (get : Pass σ σ) :=
  fun _ holds => holds

theorem ofExcept (wrap : ε → PassError) (result : Except ε α) :
    Maintains inv (Pass.ofExcept wrap result) := by
  cases result with
  | ok value => exact of_pure value
  | error error => exact of_throw (wrap error)

theorem bind {pass : Pass σ α} {next : α → Pass σ β} (first : Maintains inv pass)
    (second : ∀ value, Maintains inv (next value)) : Maintains inv (pass >>= next) := by
  intro before holds
  have here := first before holds
  cases run : pass.run before with
  | ok value middle =>
    rw [stateAfter_of_ok run] at here
    rw [stateAfter_bind_of_ok run]
    exact second value middle here
  | error error middle =>
    rw [stateAfter_of_error run] at here
    rwa [stateAfter_bind_of_error run]

theorem forM {list : List α} {visit : α → Pass σ Unit}
    (each : ∀ a ∈ list, Maintains inv (visit a)) : Maintains inv (list.forM visit) := by
  rw [List.forM_eq_forM]
  induction list with
  | nil => exact of_pure ()
  | cons a list ih =>
    rw [List.forM_cons]
    refine (each a List.mem_cons_self).bind fun _ => ?_
    exact ih fun other inside => each other (List.mem_cons_of_mem a inside)

theorem mapM {list : List α} {step : α → Pass σ β}
    (each : ∀ a ∈ list, Maintains inv (step a)) : Maintains inv (list.mapM step) := by
  induction list with
  | nil => exact of_pure []
  | cons a list ih =>
    rw [List.mapM_cons]
    refine (each a List.mem_cons_self).bind fun value => ?_
    refine (ih fun other inside => each other (List.mem_cons_of_mem a inside)).bind fun values => ?_
    exact of_pure (value :: values)

/-- A pass on a part of the state that keeps what the invariant says about that part. -/
theorem within {invPart : τ → Prop} {part : σ → τ} {put : τ → σ → σ} {pass : Pass τ α}
    (inner : Maintains invPart pass) (view : ∀ state, inv state → invPart (part state))
    (update : ∀ state after, inv state → invPart after → inv (put after state)) :
    Maintains inv (Pass.within part put pass) := by
  intro before holds
  rw [stateAfter_within]
  exact update before _ holds (inner (part before) (view before holds))

theorem decl_bind {tree : DeclTree} {id : DeclId} {next : Decl → Pass σ β}
    (each : ∀ decl, tree.get? id = some decl → Maintains inv (next decl)) :
    Maintains inv (Pass.decl tree id >>= next) := by
  cases found : tree.get id with
  | error error =>
    rw [Pass.decl, found]
    exact of_throw (.inTree error)
  | ok decl =>
    rw [Pass.decl, found]
    exact each decl (DeclTree.get_eq_ok_iff.1 found)

section Walk

variable {tree : DeclTree} {visit : DeclId → Pass σ Unit}
  (each : ∀ id, tree.Reachable id → Maintains inv (visit id))

include each

theorem walkFrom {entered : DeclForm → Bool} (depth : Nat) {id : DeclId}
    (reached : tree.Reachable id) : Maintains inv (tree.walkFrom entered visit depth id) := by
  induction depth generalizing id with
  | zero => exact of_throw _
  | succ depth ih =>
    rw [DeclTree.walkFrom]
    refine (each id reached).bind fun _ => decl_bind fun decl found => ?_
    split
    · exact forM fun child listed => ih (reached.child found listed)
    · exact of_pure ()

/-- What every visit maintains, a walk maintains. -/
theorem walkAll : Maintains inv (tree.walkAll visit) :=
  forM fun _ listed => walkFrom each tree.maxDepth (.root listed)

end Walk

end Maintains

end Relabel.Pass
