import Relabel.Proofs.Copy.Allocation

namespace Relabel

namespace Chooser

variable {judge : Judge} {owners : List (SymbolId × DeclId)} {old new : SymbolId}

/-- The entry of a symbol comes after that of a declaration which has got this symbol as its new one. -/
def AddedBefore (owners : List (SymbolId × DeclId)) (entries : List (SymbolId × SymbolId))
    (old new : SymbolId) : Prop :=
  ∃ earlier later, entries = earlier ++ (old, new) :: later ∧
    ∃ other id, (other, old) ∈ earlier ∧ owners.lookup other = some id ∧ other ≠ old

theorem AddedBefore.cons {entries : List (SymbolId × SymbolId)}
    (added : AddedBefore owners entries old new) (entry : SymbolId × SymbolId) :
    AddedBefore owners (entry :: entries) old new := by
  obtain ⟨earlier, later, rfl, other, id, inside, owner, differs⟩ := added
  exact ⟨entry :: earlier, later, rfl, other, id, List.mem_cons_of_mem entry inside, owner, differs⟩

/-- A declaration whose symbol is not known at the start can be judged only after this symbol has been
added. -/
theorem addedBefore_of_unknown {symbols : List SymbolId} {entries : List (SymbolId × SymbolId)}
    {before after : CopyState Judge.Memory} (recalls : judge.Recalls before.symbols before.memory)
    (run : (symbols.mapM (entry (selective judge) owners)).run before = .ok entries after)
    (own : ∀ decl symbol id, owners.lookup symbol = some id → judge.tree.get? id = some decl →
      decl.symbol = symbol)
    {id : DeclId} (listed : (old, new) ∈ entries) (owned : owners.lookup old = some id)
    (unknown : before.symbols.get? old = none) : AddedBefore owners entries old new := by
  induction symbols generalizing entries before with
  | nil =>
    obtain ⟨rfl, -⟩ := EStateM.Result.ok.inj run
    exact nomatch listed
  | cons first symbols ih =>
    obtain ⟨place, rest, middle, settled, others, rfl⟩ := mapM_entry_cons_run run
    cases owner : owners.lookup first with
    | none =>
      obtain ⟨-, rfl⟩ := settle_run_of_foreign owner settled
      rcases List.mem_cons.1 listed with here | inside
      · obtain ⟨rfl, -⟩ := Prod.mk.inj here
        exact nomatch owner.symm.trans owned
      · exact (ih recalls others inside unknown).cons _
    | some decl =>
      obtain ⟨transformed, judged, replacement⟩ := settle_run_of_owned owner settled
      obtain ⟨ruled, recallsNext⟩ :=
        (Judge.verdict_yields judge before.symbols decl).eq_ok recalls judged
      obtain ⟨same, symbol, found, known⟩ := Judge.known_of_ruling ruled
      obtain rfl := own same first decl owner found
      have differs : same.symbol ≠ old := by
        intro equal
        rw [equal, unknown] at known
        exact nomatch known
      have inside : (old, new) ∈ rest := by
        rcases List.mem_cons.1 listed with here | inside
        · exact absurd (congrArg Prod.fst here).symm differs
        · exact inside
      cases unknownNext : middle.symbols.get? old with
      | none =>
        have keeps := SymbolTable.Keeps.of_replacementFor replacement
        exact (ih (keeps.recalls recallsNext) others inside unknownNext).cons _
      | some added =>
        -- What has just become known is the new symbol of this declaration.
        have placed : place = old := by
          rcases SymbolTable.replacementFor_eq_ok_iff.1 replacement with
            ⟨-, data, -, -, rfl, pushed⟩ | ⟨-, -, unchanged⟩
          · by_contra other
            rw [pushed, SymbolTable.get?_push, if_neg (Ne.symm other), unknown] at unknownNext
            exact nomatch unknownNext
          · rw [unchanged, unknown] at unknownNext
            exact nomatch unknownNext
        obtain ⟨between, later, rfl⟩ := List.append_of_mem inside
        refine ⟨(same.symbol, place) :: between, later, rfl, same.symbol, decl, ?_, owner, differs⟩
        rw [placed]
        exact List.mem_cons_self

end Chooser

namespace DeclTree

/-- A declaration under the roots whose symbol is unknown stops a copy, unless the copy has given this
very symbol to another declaration before. -/
theorem exists_added_of_unknown_owner (tree : DeclTree) (predicate : TypePredicate) (before after : RelabelState)
    (copy : Copy) (id : DeclId) (decl : Decl) (reached : tree.Reachable id)
    (found : tree.get? id = some decl) (unknown : before.symbols.get? decl.symbol = none)
    (run : (tree.copy predicate).run before = .ok copy after) :
    ∃ earlier later new, copy.substitution.entries = earlier ++ (decl.symbol, new) :: later ∧
      ∃ other around, tree.Reachable other ∧ other ≠ id ∧ tree.get? other = some around ∧
        (around.symbol, decl.symbol) ∈ earlier := by
  obtain ⟨last, walked, rfl⟩ := copy_run_eq_ok_iff.1 run
  obtain ⟨owners, copied⟩ := exists_copied_of_copyWith walked
  have owner : owners.lookup decl.symbol = some id :=
    (copied.indexed.lookup _ _).2 ⟨reached, decl, found, rfl⟩
  have own (decl : Decl) (symbol : SymbolId) (id : DeclId) (owner : owners.lookup symbol = some id)
      (found : tree.get? id = some decl) : decl.symbol = symbol := by
    obtain ⟨-, same, foundSame, rfl⟩ := (copied.indexed.lookup symbol id).1 owner
    rw [Option.some.inj (found.symm.trans foundSame)]
  obtain ⟨new, entry⟩ := copied.exists_get? reached found List.mem_cons_self
  obtain ⟨earlier, later, split, symbol, other, added, ownerOther, differs⟩ :=
    Chooser.addedBefore_of_unknown (Judge.recalls_empty _) copied.entries own (mem_of_lookup entry)
      owner unknown
  obtain ⟨reachedOther, around, foundOther, rfl⟩ := (copied.indexed.lookup symbol other).1 ownerOther
  refine ⟨earlier, later, new, split, other, around, reachedOther, ?_, foundOther, added⟩
  rintro rfl
  exact differs (congrArg Decl.symbol (Option.some.inj (foundOther.symm.trans found)))

/-- A transformed function, and another one whose symbol is the next that a table with one symbol gets.
-/
def ahead (roots : List DeclId) : DeclTree where
  id := ⟨0⟩
  roots := roots
  decls := #[
    { symbol := ⟨0⟩, form := .signature .empty [] (some ((TypeExpr.ofName ⟨2⟩).annotate ⟨9⟩)) },
    { symbol := ⟨1⟩, form := .signature .empty [] none }]

def aheadSymbols : SymbolTable where
  nextTree := 1
  symbols := #[{ kind := .function .plain, origin := .declared, source := none }]

theorem exists_added_of_unknown_owner_ahead : ∃ copy after,
    ((ahead [⟨0⟩, ⟨1⟩]).copy (.marked ⟨9⟩)).run ⟨aheadSymbols, []⟩ = .ok copy after ∧
      ∃ earlier later new, copy.substitution.entries = earlier ++ (⟨1⟩, new) :: later ∧
        ∃ other around, (ahead [⟨0⟩, ⟨1⟩]).Reachable other ∧ other ≠ ⟨1⟩ ∧
          (ahead [⟨0⟩, ⟨1⟩]).get? other = some around ∧ (around.symbol, ⟨1⟩) ∈ earlier := by
  have done : ((ahead [⟨0⟩, ⟨1⟩]).copy (.marked ⟨9⟩)).succeeds ⟨aheadSymbols, []⟩ = true := by
    decide +kernel
  obtain ⟨copy, after, run⟩ := Pass.succeeds_eq_true_iff.1 done
  exact ⟨copy, after, run, exists_added_of_unknown_owner _ _ _ after copy ⟨1⟩ _ (.root (by decide)) rfl rfl run⟩

/-- The other way round, the unknown symbol is met first and stops the copy. -/
theorem copy_ahead_depends_on_order :
    aheadSymbols.get? ⟨1⟩ = none ∧
      (∃ copy after,
        ((ahead [⟨0⟩, ⟨1⟩]).copy (.marked ⟨9⟩)).run ⟨aheadSymbols, []⟩ = .ok copy after ∧
        (ahead [⟨0⟩, ⟨1⟩]).Reachable ⟨1⟩) ∧
      ∃ after, ((ahead [⟨1⟩, ⟨0⟩]).copy (.marked ⟨9⟩)).run ⟨aheadSymbols, []⟩ =
        .error (.inTable (.unknown ⟨1⟩)) after := by
  refine ⟨rfl, ?_, ?_⟩
  · have done : ((ahead [⟨0⟩, ⟨1⟩]).copy (.marked ⟨9⟩)).succeeds ⟨aheadSymbols, []⟩ = true := by
      decide +kernel
    obtain ⟨copy, after, run⟩ := Pass.succeeds_eq_true_iff.1 done
    exact ⟨copy, after, run, .root (by decide)⟩
  · exact ⟨_, rfl⟩

end DeclTree

end Relabel
