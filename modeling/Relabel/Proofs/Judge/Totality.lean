import Relabel.Proofs.Judge.Reasons
import Relabel.Proofs.Tree.Nesting

namespace Relabel.Judge

variable {judge : Judge} {symbols : SymbolTable} (total : judge.predicate.Total)
  (closed : judge.tree.Closed) (nested : judge.tree.Nested)
  (known : ∀ id decl, judge.tree.Reachable id → judge.tree.get? id = some decl →
    ∃ symbol, symbols.get? decl.symbol = some symbol)

include total closed nested known

theorem exists_rulingWith {outer : DeclId → Except PassError Bool}
    (above : ∀ id, judge.tree.Reachable id → ∃ verdict, outer id = .ok verdict) {id : DeclId}
    (reached : judge.tree.Reachable id) :
    ∃ verdict, judge.rulingWith symbols outer id = .ok verdict := by
  obtain ⟨decl, found⟩ := closed id reached
  obtain ⟨symbol, here⟩ := known id decl reached found
  have outside (container : DeclId) (inside : decl.container = some container) :=
    nested.reachable_container reached found inside
  have around : Decides (judge.containerRuling outer decl)
      (judge.InTransformed (fun id => outer id = .ok true) decl) := by
    apply decides_containerRuling
    · intro container inside
      exact closed container (outside container inside)
    · intro container _ inside _ _
      exact .of_exists_eq_ok (above container (outside container inside))
  rw [rulingWith_of_known found here]
  have decides := decides_rulingOn total (fun child listed => closed child (reached.child found listed))
    around id symbol.isPlaceholder
  exact decides.exists_eq_ok

/-- In a nested tree all of whose symbols are known, a predicate that never fails leaves nothing
unjudged. -/
theorem exists_ruling {id : DeclId} (reached : judge.tree.Reachable id) :
    ∃ verdict, judge.ruling symbols id = .ok verdict := by
  have above (id : DeclId) (reached : judge.tree.Reachable id) :=
    exists_rulingWith total closed nested known (fun _ _ => ⟨false, rfl⟩) reached
  exact exists_rulingWith total closed nested known above reached

end Relabel.Judge
