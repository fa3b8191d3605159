import Relabel.Proofs.TableInvariant

namespace Relabel

namespace SymbolTable

variable {table : SymbolTable}

/-- Where a declaration claims a placeholder that is free, there is one bound symbol more. -/
theorem boundCount_claim {id : SymbolId} {symbol : Symbol} (known : table.get? id = some symbol)
    (site : DeclSite) (span : Span) : (table.claim id site span).boundCount =
      table.boundCount + (symbol.isStandIn && !symbol.isBound).toNat := by
  have listed : table.symbols.toList[id.index]? = some symbol := by
    rw [Array.getElem?_toList]
    exact known
  obtain ⟨inside, -⟩ := List.getElem?_eq_some_iff.1 listed
  obtain ⟨before, same, after, split, place, changed⟩ :=
    List.exists_of_modify (·.claimedAt site span) inside
  obtain rfl : same = symbol := by
    rw [split, ← place] at listed
    simpa using listed
  have claimed : (table.claim id site span).symbols.toList =
      before ++ same.claimedAt site span :: after := by
    rw [claim, Array.toList_modify, changed]
  rw [boundCount, boundCount, claimed, split]
  simp only [List.countP_append, List.countP_cons, Symbol.isBound_claimedAt]
  cases same.isBound <;> cases same.isStandIn <;> rfl

/-- A symbol that is added is not bound. -/
theorem boundCount_push_standIn (table : SymbolTable) (symbol : Symbol) :
    (table.push symbol.standIn).boundCount = table.boundCount := by
  have free : symbol.standIn.isBound = false := rfl
  simp [push, boundCount, free]

end SymbolTable

namespace DeclTree

variable {tree : DeclTree}

theorem boundCount_of_forM_bindOwner {ids : List DeclId} {before after : SymbolTable}
    {stats last : BindingStats}
    (run : (ids.forM tree.bindOwner).run (before, stats) = .ok () (after, last)) :
    after.boundCount + stats.bound = before.boundCount + last.bound := by
  induction ids generalizing before stats with
  | nil =>
    cases run
    rfl
  | cons id ids ih =>
    obtain ⟨decl, symbol, -, known, -, rest⟩ := forM_bindOwner_cons_run_eq_ok_iff.1 run
    have later := ih rest
    have here := SymbolTable.boundCount_claim known ⟨tree.id, id⟩ decl.span
    simp only [BindingStats.counting] at later
    omega

/-- Binding counts the symbols that it binds. -/
theorem boundCount_of_bindPlaceholders {before after : SymbolTable} {stats : BindingStats}
    (run : tree.bindPlaceholders.run before = .ok stats after) :
    after.boundCount = before.boundCount + stats.bound :=
  boundCount_of_forM_bindOwner (bindPlaceholders_run_eq_ok_iff.1 run).2

/-- A copy binds nothing, also where it fails. -/
theorem boundCount_of_copy (tree : DeclTree) (predicate : TypePredicate) (before : RelabelState) :
    ((tree.copy predicate).stateAfter before).symbols.boundCount = before.symbols.boundCount :=
  @maintained_of_copy (·.boundCount = before.symbols.boundCount) tree predicate before
    (fun _ _ => rfl) rfl fun table symbol same => (table.boundCount_push_standIn symbol).trans same

/-- What a relabelling counts as bound is by how much the bound symbols have become more. -/
theorem boundCount_of_relabel {predicate : TypePredicate} {options : RelabelOptions}
    {before after : RelabelState} {out : Relabelled}
    (run : (tree.relabel predicate options).run before = .ok out after) :
    after.symbols.boundCount = before.symbols.boundCount + out.stats.bound := by
  obtain ⟨middle, copied, binding, -⟩ := relabel_run_eq_ok_iff.1 run
  have same := tree.boundCount_of_copy predicate before
  rw [Pass.stateAfter_of_ok copied] at same
  rw [boundCount_of_bindPlaceholders binding, same]

end DeclTree

end Relabel
