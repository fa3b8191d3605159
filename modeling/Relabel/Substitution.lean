import Relabel.Id

namespace Relabel

/-- New symbols for old ones, each old one once, in the order in which they were chosen. A symbol that
stays has an entry too. -/
structure Substitution where
  entries : List (SymbolId × SymbolId) := []
deriving DecidableEq, Repr

namespace Substitution

def get? (substitution : Substitution) (old : SymbolId) : Option SymbolId :=
  substitution.entries.lookup old

/-- The symbol that stands for `old` now; it is `old` where nothing was chosen. -/
def apply (substitution : Substitution) (old : SymbolId) : SymbolId :=
  (substitution.get? old).getD old

/-- Adds an entry for a symbol that has none. -/
def record (substitution : Substitution) (old new : SymbolId) : Substitution :=
  ⟨substitution.entries ++ [(old, new)]⟩

def isReplaced (substitution : Substitution) (old : SymbolId) : Bool :=
  (substitution.get? old).any (· != old)

def replacements (substitution : Substitution) : List (SymbolId × SymbolId) :=
  substitution.entries.filter fun (old, new) => old != new

def size (substitution : Substitution) : Nat := substitution.entries.length

def isEmpty (substitution : Substitution) : Bool := substitution.entries.isEmpty

/-- Puts entries in the order of the old symbols. -/
def sortEntries (entries : List (SymbolId × SymbolId)) : List (SymbolId × SymbolId) :=
  entries.mergeSort fun a b => a.1.index ≤ b.1.index

theorem apply_eq_of_get? {substitution : Substitution} {old new : SymbolId}
    (found : substitution.get? old = some new) : substitution.apply old = new := by
  simp [apply, found]

theorem isReplaced_eq_true_iff {substitution : Substitution} {old : SymbolId} :
    substitution.isReplaced old = true ↔
      ∃ new, substitution.get? old = some new ∧ new ≠ old := by
  simp [isReplaced, Option.any_eq_true]

theorem mem_replacements_iff {substitution : Substitution} {old new : SymbolId} :
    (old, new) ∈ substitution.replacements ↔ (old, new) ∈ substitution.entries ∧ old ≠ new := by
  simp [replacements]

end Substitution

end Relabel
