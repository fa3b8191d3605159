import Relabel.Proofs.Yields

namespace Relabel.Pass

variable {σ τ ι ε α β : Type}

theorem resultFrom_of_ok {pass : Pass σ α} {before after : σ} {value : α}
    (run : pass.run before = .ok value after) : pass.resultFrom before = .ok value := by
  rw [resultFrom, run]

theorem resultFrom_of_error {pass : Pass σ α} {before after : σ} {error : PassError}
    (run : pass.run before = .error error after) : pass.resultFrom before = .error error := by
  rw [resultFrom, run]

theorem exists_run_of_resultFrom_error {pass : Pass σ α} {before : σ} {error : PassError}
    (failed : pass.resultFrom before = .error error) :
    ∃ after, pass.run before = .error error after := by
  rw [resultFrom] at failed
  cases run : pass.run before with
  | ok value after =>
    rw [run] at failed
    cases failed
  | error cause after =>
    rw [run] at failed
    rw [Except.error.inj failed]
    exact ⟨after, rfl⟩

theorem resultFrom_bind_of_ok {pass : Pass σ α} {next : α → Pass σ β} {before middle : σ}
    {value : α} (run : pass.run before = .ok value middle) :
    (pass >>= next).resultFrom before = (next value).resultFrom middle := by
  rw [resultFrom, resultFrom, EStateM.run_bind, run]

theorem resultFrom_bind_of_error {pass : Pass σ α} {next : α → Pass σ β} {before middle : σ}
    {error : PassError} (run : pass.run before = .error error middle) :
    (pass >>= next).resultFrom before = .error error := by
  rw [resultFrom, EStateM.run_bind, run]

theorem resultFrom_within (part : σ → τ) (put : τ → σ → σ) (pass : Pass τ α) (before : σ) :
    (within part put pass).resultFrom before = pass.resultFrom (part before) := by
  rw [resultFrom, run_within, resultFrom]
  cases pass.run (part before) <;> rfl

/-- From every state that satisfies `inv`, the pass ends in such a state again, also where it fails.
What it adds to the log, which is kept newest first, and its result are as specified. -/
def Logs (log : σ → List ι) (inv : σ → Prop) (spec : List ι → Except PassError α → Prop)
    (pass : Pass σ α) : Prop :=
  ∀ before, inv before → inv (pass.stateAfter before) ∧ ∃ added,
    log (pass.stateAfter before) = added.reverse ++ log before ∧ spec added (pass.resultFrom before)

namespace Logs

variable {log : σ → List ι} {inv : σ → Prop} {spec target : List ι → Except PassError α → Prop}

/-- A pass that changes nothing that matters. -/
theorem silent {pass : Pass σ α} (result : Except PassError α)
    (maintains : ∀ before, inv before → inv (pass.stateAfter before))
    (unchanged : ∀ before, log (pass.stateAfter before) = log before)
    (results : ∀ before, pass.resultFrom before = result) (none : spec [] result) :
    Logs log inv spec pass := by
  intro before holds
  refine ⟨maintains before holds, [], ?_, ?_⟩
  · simpa using unchanged before
  · rwa [results]

theorem of_pure {value : α} (none : spec [] (.ok value)) :
    Logs log inv spec (pure value : Pass σ α) :=
  silent _ (fun _ holds => holds) (fun _ => rfl) (fun _ => rfl) none

theorem of_throw {error : PassError} (none : spec [] (.error error)) :
    Logs log inv spec (throw error : Pass σ α) :=
  silent _ (fun _ holds => holds) (fun _ => rfl) (fun _ => rfl) none

theorem mono {pass : Pass σ α} (logs : Logs log inv spec pass)
    (weaken : ∀ added result, spec added result → target added result) :
    Logs log inv target pass := by
  intro before holds
  obtain ⟨still, added, grows, specified⟩ := logs before holds
  exact ⟨still, added, grows, weaken added _ specified⟩

/-- What one pass logs comes before what the next one logs. -/
theorem bind (specNext : α → List ι → Except PassError β → Prop)
    {whole : List ι → Except PassError β → Prop} {pass : Pass σ α} {next : α → Pass σ β}
    (first : Logs log inv spec pass) (second : ∀ value, Logs log inv (specNext value) (next value))
    (failed : ∀ added error, spec added (.error error) → whole added (.error error))
    (onward : ∀ added value more result, spec added (.ok value) → specNext value more result →
      whole (added ++ more) result) : Logs log inv whole (pass >>= next) := by
  intro before holds
  obtain ⟨still, added, grows, specified⟩ := first before holds
  cases run : pass.run before with
  | error error middle =>
    rw [stateAfter_of_error run] at still grows
    rw [resultFrom_of_error run] at specified
    rw [stateAfter_bind_of_error run, resultFrom_bind_of_error run]
    exact ⟨still, added, grows, failed added error specified⟩
  | ok value middle =>
    rw [stateAfter_of_ok run] at still grows
    rw [resultFrom_of_ok run] at specified
    obtain ⟨last, more, growsMore, specifiedNext⟩ := second value middle still
    rw [stateAfter_bind_of_ok run, resultFrom_bind_of_ok run]
    refine ⟨last, added ++ more, ?_, onward added value more _ specified specifiedNext⟩
    rw [growsMore, grows, List.reverse_append, List.append_assoc]

/-- A result that has been computed before, or its error. -/
theorem ofExcept_bind {wrap : ε → PassError} {result : Except ε α} {next : α → Pass σ β}
    {whole : List ι → Except PassError β → Prop}
    (each : ∀ value, result = .ok value → Logs log inv whole (next value))
    (failed : ∀ error, result = .error error → whole [] (.error (wrap error))) :
    Logs log inv whole (Pass.ofExcept wrap result >>= next) := by
  cases result with
  | ok value => exact each value rfl
  | error error =>
    have stops : Logs log inv whole (throw (wrap error) : Pass σ β) := .of_throw (failed error rfl)
    exact stops

/-- The next pass may be chosen by the state. -/
theorem get_bind {next : σ → Pass σ α} (each : ∀ state, inv state → Logs log inv spec (next state)) :
    Logs log inv spec ((get : Pass σ σ) >>= next) :=
  fun before holds => each before holds before holds

/-- A change of the state that adds to the log. -/
theorem modify_bind {change : σ → σ} {next : Pass σ α} (items : List ι)
    (maintains : ∀ state, inv state → inv (change state))
    (grows : ∀ state, log (change state) = items.reverse ++ log state)
    (rest : Logs log inv (fun more result => target (items ++ more) result) next) :
    Logs log inv target ((modify change : Pass σ PUnit) >>= fun _ => next) := by
  intro before holds
  obtain ⟨still, more, growsMore, specified⟩ := rest (change before) (maintains before holds)
  refine ⟨still, items ++ more, ?_, specified⟩
  rw [List.reverse_append, List.append_assoc, ← grows]
  exact growsMore

/-- A pass on the part of the state that has the log. -/
theorem within {logPart : τ → List ι} {invPart : τ → Prop} {part : σ → τ} {put : τ → σ → σ}
    {pass : Pass τ α} (inner : Logs logPart invPart spec pass)
    (view : ∀ state, inv state → invPart (part state))
    (update : ∀ state after, inv state → invPart after → inv (put after state))
    (logView : ∀ state, logPart (part state) = log state)
    (logUpdate : ∀ state after, log (put after state) = logPart after) :
    Logs log inv spec (Pass.within part put pass) := by
  intro before holds
  obtain ⟨still, added, grows, specified⟩ := inner (part before) (view before holds)
  rw [stateAfter_within, resultFrom_within]
  refine ⟨update before _ holds still, added, ?_, specified⟩
  rw [logUpdate, grows, logView]

end Logs

end Relabel.Pass
