import Relabel.Proofs.Copy.Allocation
import Relabel.Proofs.Tree.Nesting

namespace Relabel

theorem SymbolTable.exists_replacementFor {table : SymbolTable} {old : SymbolId}
    (known : ∃ symbol, table.get? old = some symbol) (transformed : Bool) :
    ∃ new after, table.replacementFor old transformed = .ok (new, after) := by
  obtain ⟨symbol, found⟩ := known
  cases transformed with
  | false => exact ⟨old, table, replacementFor_untransformed table old⟩
  | true =>
    by_cases isClass : symbol.kind = .cls
    · exact ⟨old, table, replacementFor_class found isClass⟩
    · exact ⟨_, _, replacementFor_of_replaceable found isClass⟩

namespace Chooser

variable {judge : Judge} {owners : List (SymbolId × DeclId)}

/-- A declaration that can be judged gets its symbol. -/
theorem exists_settle_run {old : SymbolId} {id : DeclId} {transformed : Bool}
    {before : CopyState Judge.Memory} (recalls : judge.Recalls before.symbols before.memory)
    (owned : owners.lookup old = some id) (known : ∃ symbol, before.symbols.get? old = some symbol)
    (ruled : judge.ruling before.symbols id = .ok transformed) :
    ∃ new after, ((selective judge).settle owners old).run before = .ok new after ∧
      after.symbols.Keeps before.symbols ∧ judge.Recalls after.symbols after.memory := by
  have yields := Judge.verdict_yields judge before.symbols id
  obtain ⟨memory, judged⟩ := (yields.run_eq_ok_iff recalls).2 ruled
  have recallsNext := (yields.eq_ok recalls judged).2
  obtain ⟨new, symbols, replacement⟩ := SymbolTable.exists_replacementFor known transformed
  have keeps := SymbolTable.Keeps.of_replacementFor replacement
  have chosen : (selective judge id old).run (before.symbols, before.memory) =
      .ok new (symbols, memory) :=
    selective_run_eq_ok_iff.2 ⟨transformed, judged, replacement⟩
  refine ⟨new, ⟨symbols, memory, (id, old) :: before.asked⟩, ?_, keeps, keeps.recalls recallsNext⟩
  simp only [settle, owned]
  exact ask_run_eq_ok_iff.2 ⟨symbols, memory, chosen, rfl⟩

theorem exists_mapM_entry_run {symbols : List SymbolId} {before : CopyState Judge.Memory}
    (recalls : judge.Recalls before.symbols before.memory)
    (judged : ∀ old ∈ symbols, ∀ id, owners.lookup old = some id →
      (∃ symbol, before.symbols.get? old = some symbol) ∧
        ∃ transformed, judge.ruling before.symbols id = .ok transformed) :
    ∃ entries after,
      (symbols.mapM (entry (selective judge) owners)).run before = .ok entries after := by
  induction symbols generalizing before with
  | nil => exact ⟨[], before, rfl⟩
  | cons old symbols ih =>
    have settled : ∃ new middle, ((selective judge).settle owners old).run before = .ok new middle ∧
        middle.symbols.Keeps before.symbols ∧ judge.Recalls middle.symbols middle.memory := by
      cases owner : owners.lookup old with
      | none =>
        refine ⟨old, before, ?_, .refl _, recalls⟩
        simp only [settle, owner]
        rfl
      | some id =>
        obtain ⟨known, transformed, ruled⟩ := judged old List.mem_cons_self id owner
        exact exists_settle_run recalls owner known ruled
    obtain ⟨new, middle, run, keeps, recallsNext⟩ := settled
    have judgedRest (other : SymbolId) (inside : other ∈ symbols) (id : DeclId)
        (owner : owners.lookup other = some id) :
        (∃ symbol, middle.symbols.get? other = some symbol) ∧
          ∃ transformed, judge.ruling middle.symbols id = .ok transformed := by
      obtain ⟨⟨symbol, known⟩, transformed, ruled⟩ :=
        judged other (List.mem_cons_of_mem old inside) id owner
      obtain ⟨same, knownLater, -⟩ := keeps other symbol known
      exact ⟨⟨same, knownLater⟩, transformed, keeps.ruling_eq_ok ruled⟩
    obtain ⟨rest, after, runRest⟩ := ih recallsNext judgedRest
    refine ⟨(old, new) :: rest, after, ?_⟩
    rw [List.mapM_cons, EStateM.run_bind, entry, EStateM.run_bind, run]
    simp only [EStateM.run_pure, EStateM.run_bind, runRest]

end Chooser

namespace DeclTree

variable {tree : DeclTree} {predicate : TypePredicate} {before : RelabelState}

/-- A copy succeeds if the tree can be indexed and all that is under the roots can be judged. -/
theorem exists_copy_run (declared : ∃ owners, tree.declared = .ok owners)
    (judged : ∀ id, tree.Reachable id →
      ∃ transformed, (Judge.mk tree predicate).ruling before.symbols id = .ok transformed) :
    ∃ copy after, (tree.copy predicate).run before = .ok copy after := by
  obtain ⟨owners, declared⟩ := declared
  have indexed := indexed_of_declared declared
  have keeps : before.symbols.takeTree.2.Keeps before.symbols := .refl before.symbols
  have judgedOwners (old : SymbolId) (_ : old ∈ tree.symbolsInUse.eraseDups) (id : DeclId)
      (owner : owners.lookup old = some id) :
      (∃ symbol, before.symbols.takeTree.2.get? old = some symbol) ∧
        ∃ transformed, (Judge.mk tree predicate).ruling before.symbols.takeTree.2 id =
          .ok transformed := by
    obtain ⟨reached, decl, found, rfl⟩ := (indexed.lookup old id).1 owner
    obtain ⟨transformed, ruled⟩ := judged id reached
    obtain ⟨same, symbol, foundSame, known⟩ := Judge.known_of_ruling ruled
    obtain rfl := Option.some.inj (found.symm.trans foundSame)
    exact ⟨⟨symbol, known⟩, transformed, keeps.ruling_eq_ok ruled⟩
  let start : CopyState Judge.Memory :=
    { symbols := before.symbols.takeTree.2, memory := { consulted := before.consulted } }
  have recalls : (Judge.mk tree predicate).Recalls start.symbols start.memory :=
    Judge.recalls_empty _
  obtain ⟨entries, after, run⟩ := Chooser.exists_mapM_entry_run recalls judgedOwners
  refine ⟨⟨tree.renamed before.symbols.takeTree.1 ⟨entries⟩, ⟨entries⟩⟩, _,
    copy_run_eq_ok_iff.2 ⟨after, ?_, rfl⟩⟩
  rw [copyWith_eq_copyListed, copyListed_run declared]
  simp only [start] at run
  simp only [run]

/-- Where all that matters to the judgement is known, that is also necessary. -/
theorem exists_copy_run_iff
    (informed : ∀ id, tree.Reachable id → (Judge.mk tree predicate).Informed before.symbols id) :
    (∃ copy after, (tree.copy predicate).run before = .ok copy after) ↔
      (∃ owners, tree.declared = .ok owners) ∧ ∀ id, tree.Reachable id →
        ∃ transformed, (Judge.mk tree predicate).ruling before.symbols id = .ok transformed := by
  constructor
  · intro done
    obtain ⟨copy, after, run⟩ := done
    obtain ⟨last, walked, -⟩ := copy_run_eq_ok_iff.1 run
    obtain ⟨owners, copied⟩ := exists_copied_of_copyWith walked
    refine ⟨⟨owners, copied.declared⟩, fun id reached => ?_⟩
    obtain ⟨decl, found⟩ := copied.indexed.known id ((copied.indexed.mem_postorder id).2 reached)
    obtain ⟨symbol, known⟩ := (informed id reached).own decl found
    obtain ⟨transformed, ruled, -⟩ :=
      exists_ruling_of_informed run reached found known (informed id reached)
    exact ⟨transformed, ruled⟩
  · intro both
    exact exists_copy_run both.1 both.2

end DeclTree

end Relabel
