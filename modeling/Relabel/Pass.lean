import Relabel.Tree.Basic

namespace Relabel

/-- Why a predicate could not classify a type. -/
structure PredicateFailure where
  message : String
deriving DecidableEq, Repr

/-- What can stop a pass over a declaration tree. -/
inductive PassError where
  | predicate (decl : DeclId) (failure : PredicateFailure)
  | neverBound (symbol : SymbolId) (decl : DeclId) (kind : Symbol.Kind)
  | misplaced (symbol : SymbolId) (decl : DeclId) (kind : Symbol.Kind) (sort : DeclSort)
  | declaredTwice (symbol : SymbolId) (first second : DeclId)
  | inTable (error : SymbolTable.Error)
  | inTree (error : DeclTree.Error)
deriving DecidableEq, Repr

def PassError.message : PassError → String
  | predicate decl failure => s!"type predicate failed for {decl.label}: {failure.message}"
  | neverBound symbol decl kind =>
    s!"{kind.label} symbol {symbol.label} of {decl.label} was never bound to its declaration"
  | misplaced symbol decl kind sort =>
    s!"{kind.label} placeholder {symbol.label} is owned by {sort.label} {decl.label}"
  | declaredTwice symbol first second =>
    s!"symbol {symbol.label} is declared by both {first.label} and {second.label}"
  | inTable error => error.message
  | inTree error => error.message

/-- A computation over a state that stays as it was left when the computation fails. -/
abbrev Pass (σ α : Type) := EStateM PassError σ α

namespace Pass

variable {σ τ ε α : Type}

def ofExcept (wrap : ε → PassError) : Except ε α → Pass σ α
  | .ok value => pure value
  | .error error => throw (wrap error)

def ofResult : Except PassError α → Pass σ α := ofExcept id

def toResult (pass : Pass Unit α) : Except PassError α :=
  match pass.run () with
  | .ok value _ => .ok value
  | .error error _ => .error error

def succeeds (pass : Pass σ α) (before : σ) : Bool :=
  match pass.run before with
  | .ok .. => true
  | .error .. => false

/-- Runs a pass on a part of the state, and puts that part back also after a failure. -/
def within (part : σ → τ) (put : τ → σ → σ) (pass : Pass τ α) : Pass σ α := fun state =>
  match pass.run (part state) with
  | .ok value after => .ok value (put after state)
  | .error error after => .error error (put after state)

def decl (tree : DeclTree) (id : DeclId) : Pass σ Decl := ofExcept .inTree (tree.get id)

def symbol (symbols : SymbolTable) (id : SymbolId) : Pass σ Symbol :=
  ofExcept .inTable (symbols.get id)

theorem succeeds_eq_true_iff {pass : Pass σ α} {before : σ} : pass.succeeds before = true ↔
    ∃ value after, pass.run before = .ok value after := by
  unfold succeeds
  cases pass.run before <;> simp

theorem run_bind_eq_ok_iff {β : Type} {pass : Pass σ α} {next : α → Pass σ β} {before after : σ}
    {value : β} : (pass >>= next).run before = .ok value after ↔
      ∃ first middle, pass.run before = .ok first middle ∧
        (next first).run middle = .ok value after := by
  simp only [bind, EStateM.bind, EStateM.run]
  cases pass before <;> simp [and_assoc]

theorem run_map_eq_ok_iff {β : Type} {pass : Pass σ α} {f : α → β} {before after : σ} {value : β} :
    (f <$> pass).run before = .ok value after ↔
      ∃ first, pass.run before = .ok first after ∧ f first = value := by
  rw [map_eq_pure_bind, run_bind_eq_ok_iff]
  constructor
  · rintro ⟨first, _, run, returned⟩
    obtain ⟨rfl, rfl⟩ := EStateM.Result.ok.inj returned
    exact ⟨first, run, rfl⟩
  · rintro ⟨first, run, rfl⟩
    exact ⟨first, after, run, rfl⟩

theorem run_bind_eq_error_iff {β : Type} {pass : Pass σ α} {next : α → Pass σ β}
    {before after : σ} {error : PassError} : (pass >>= next).run before = .error error after ↔
      pass.run before = .error error after ∨ ∃ first middle, pass.run before = .ok first middle ∧
        (next first).run middle = .error error after := by
  simp only [bind, EStateM.bind, EStateM.run]
  cases pass before <;> simp [and_assoc]

theorem run_ofExcept_eq_ok_iff {wrap : ε → PassError} {result : Except ε α} {value : α}
    {before after : σ} : (ofExcept wrap result).run before = .ok value after ↔
      result = .ok value ∧ before = after := by
  cases result with
  | ok found =>
    constructor
    · intro run
      obtain ⟨rfl, rfl⟩ := EStateM.Result.ok.inj run
      exact ⟨rfl, rfl⟩
    · intro both
      obtain ⟨same, rfl⟩ := both
      obtain rfl := Except.ok.inj same
      rfl
  | error cause =>
    constructor
    · intro run
      cases run
    · intro both
      cases both.1

theorem run_ofExcept_eq_error_iff {wrap : ε → PassError} {result : Except ε α}
    {error : PassError} {before after : σ} :
    (ofExcept wrap result).run before = .error error after ↔
      (∃ cause, result = .error cause ∧ wrap cause = error) ∧ before = after := by
  cases result with
  | ok found =>
    constructor
    · intro run
      cases run
    · intro both
      obtain ⟨⟨cause, same, -⟩, -⟩ := both
      cases same
  | error cause =>
    constructor
    · intro run
      obtain ⟨rfl, rfl⟩ := EStateM.Result.error.inj run
      exact ⟨⟨cause, rfl, rfl⟩, rfl⟩
    · intro both
      obtain ⟨⟨other, same, rfl⟩, rfl⟩ := both
      obtain rfl := Except.error.inj same
      rfl

theorem run_within (part : σ → τ) (put : τ → σ → σ) (pass : Pass τ α) (before : σ) :
    (within part put pass).run before =
      match pass.run (part before) with
      | .ok value after => .ok value (put after before)
      | .error error after => .error error (put after before) := rfl

theorem run_within_eq_ok_iff {part : σ → τ} {put : τ → σ → σ} {pass : Pass τ α}
    {before after : σ} {value : α} : (within part put pass).run before = .ok value after ↔
      ∃ middle, pass.run (part before) = .ok value middle ∧ put middle before = after := by
  simp only [within, EStateM.run]
  cases pass (part before) <;> simp [and_assoc]

theorem run_within_eq_error_iff {part : σ → τ} {put : τ → σ → σ} {pass : Pass τ α}
    {before after : σ} {error : PassError} :
    (within part put pass).run before = .error error after ↔
      ∃ middle, pass.run (part before) = .error error middle ∧ put middle before = after := by
  simp only [within, EStateM.run]
  cases pass (part before) <;> simp [and_assoc]

theorem run_decl_eq_ok_iff {tree : DeclTree} {id : DeclId} {decl : Decl} {before after : σ} :
    (Pass.decl tree id).run before = .ok decl after ↔
      tree.get? id = some decl ∧ before = after := by
  rw [Pass.decl, run_ofExcept_eq_ok_iff, DeclTree.get_eq_ok_iff]

theorem decl_eq_pure {tree : DeclTree} {id : DeclId} {decl : Decl}
    (found : tree.get? id = some decl) : (Pass.decl tree id : Pass σ Decl) = pure decl := by
  rw [Pass.decl, DeclTree.get_eq_ok_iff.2 found]
  rfl

theorem run_symbol_eq_ok_iff {symbols : SymbolTable} {id : SymbolId} {symbol : Symbol}
    {before after : σ} : (Pass.symbol symbols id).run before = .ok symbol after ↔
      symbols.get? id = some symbol ∧ before = after := by
  rw [Pass.symbol, run_ofExcept_eq_ok_iff, SymbolTable.get_eq_ok_iff]

end Pass

end Relabel
