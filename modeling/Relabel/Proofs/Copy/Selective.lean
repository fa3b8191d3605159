import Relabel.Copy.Selective
import Relabel.Proofs.Copy.Settling
import Relabel.Proofs.Judge.Growth
import Relabel.Proofs.Symbol.Replacement

namespace Relabel.Chooser

variable {judge : Judge} {owners : List (SymbolId × DeclId)} {old new : SymbolId}

theorem replace_run_eq_ok_iff {σ : Type} {transformed : Bool} {symbols after : SymbolTable}
    {memory last : σ} :
    (replace old transformed).run (symbols, memory) = .ok new (after, last) ↔
      symbols.replacementFor old transformed = .ok (new, after) ∧ last = memory := by
  rw [replace, EStateM.run_bind, EStateM.run_get]
  simp only [Pass.run_bind_eq_ok_iff, Pass.run_ofExcept_eq_ok_iff]
  constructor
  · intro chosen
    obtain ⟨⟨_, symbols'⟩, _, ⟨replaced, rfl⟩, _, _, put, done⟩ := chosen
    obtain ⟨-, rfl⟩ := EStateM.Result.ok.inj put
    obtain ⟨rfl, same⟩ := EStateM.Result.ok.inj done
    obtain ⟨rfl, rfl⟩ := Prod.mk.inj same
    exact ⟨replaced, rfl⟩
  · intro chosen
    obtain ⟨replaced, rfl⟩ := chosen
    exact ⟨_, _, ⟨replaced, rfl⟩, _, _, rfl, rfl⟩

/-- Replacing a symbol leaves the memory alone, and the table too if it fails. -/
theorem replace_run_cases {σ : Type} (old : SymbolId) (transformed : Bool) (symbols : SymbolTable)
    (memory : σ) :
    (∃ error, (replace old transformed).run (symbols, memory) =
      .error (.inTable error) (symbols, memory)) ∨
    ∃ new after, (replace old transformed).run (symbols, memory) = .ok new (after, memory) ∧
      symbols.replacementFor old transformed = .ok (new, after) := by
  cases replacement : symbols.replacementFor old transformed with
  | error error =>
    left
    refine ⟨error, ?_⟩
    simp only [replace, EStateM.run_bind, EStateM.run_get, replacement]
    rfl
  | ok result =>
    obtain ⟨new, after⟩ := result
    exact .inr ⟨new, after, replace_run_eq_ok_iff.2 ⟨replacement, rfl⟩, rfl⟩

theorem selective_run_eq_ok_iff {id : DeclId} {symbols after : SymbolTable}
    {memory last : Judge.Memory} :
    (selective judge id old).run (symbols, memory) = .ok new (after, last) ↔
      ∃ transformed, (judge.verdict symbols id).run memory = .ok transformed last ∧
        symbols.replacementFor old transformed = .ok (new, after) := by
  rw [selective, EStateM.run_bind, EStateM.run_get]
  simp only [Pass.run_bind_eq_ok_iff, Pass.run_within_eq_ok_iff]
  constructor
  · intro chosen
    obtain ⟨transformed, _, ⟨judged, run, rfl⟩, done⟩ := chosen
    obtain ⟨replaced, rfl⟩ := replace_run_eq_ok_iff.1 done
    exact ⟨transformed, run, replaced⟩
  · intro chosen
    obtain ⟨transformed, run, replaced⟩ := chosen
    exact ⟨transformed, _, ⟨last, run, rfl⟩, replace_run_eq_ok_iff.2 ⟨replaced, rfl⟩⟩

theorem settle_run_of_foreign {σ : Type} {choose : Chooser σ} {before after : CopyState σ}
    (foreign : owners.lookup old = none)
    (run : (choose.settle owners old).run before = .ok new after) : new = old ∧ after = before := by
  rw [settle, foreign] at run
  obtain ⟨same, unchanged⟩ := EStateM.Result.ok.inj run
  exact ⟨same.symm, unchanged.symm⟩

/-- Settling the symbol of a declaration judges it and replaces the symbol accordingly. -/
theorem settle_run_of_owned {id : DeclId} {before after : CopyState Judge.Memory}
    (owned : owners.lookup old = some id)
    (run : ((selective judge).settle owners old).run before = .ok new after) :
    ∃ transformed, (judge.verdict before.symbols id).run before.memory = .ok transformed after.memory ∧
      before.symbols.replacementFor old transformed = .ok (new, after.symbols) := by
  simp only [settle, owned] at run
  obtain ⟨symbols, memory, chosen, rfl⟩ := ask_run_eq_ok_iff.1 run
  exact selective_run_eq_ok_iff.1 chosen

/-- What settling symbols with a selective chooser has done: the symbols in `replaced` have got new
ones, numbered from the old size of the table on, and all others stay. -/
structure Selected (owners : List (SymbolId × DeclId)) (before after : SymbolTable)
    (symbols : List SymbolId) (entries : List (SymbolId × SymbolId)) (replaced : List SymbolId) :
    Prop where
  sublist : replaced.Sublist symbols
  owned : ∀ old ∈ replaced, ∃ id symbol, owners.lookup old = some id ∧
    before.get? old = some symbol ∧ symbol.kind ≠ .cls
  entries : entries = symbols.map fun old => (old, old.allotted before.size replaced)
  table : after = before.withStandIns replaced

theorem Selected.kept {before after : SymbolTable} {symbols replaced : List SymbolId}
    {rest : List (SymbolId × SymbolId)}
    (selected : Selected owners before after symbols rest replaced) (new : old ∉ symbols) :
    Selected owners before after (old :: symbols) ((old, old) :: rest) replaced := by
  have outside : old ∉ replaced := fun inside => new (selected.sublist.subset inside)
  refine ⟨selected.sublist.cons old, selected.owned, ?_, selected.table⟩
  rw [List.map_cons, SymbolId.allotted_of_not_mem outside, selected.entries]

theorem Selected.placed {before after : SymbolTable} {symbols replaced : List SymbolId}
    {rest : List (SymbolId × SymbolId)} {id : DeclId} {symbol : Symbol}
    (selected : Selected owners (before.push symbol.standIn) after symbols rest replaced)
    (new : old ∉ symbols) (owned : owners.lookup old = some id)
    (found : before.get? old = some symbol) (replaceable : symbol.kind ≠ .cls)
    (known : ∀ other ∈ symbols, ∀ id, owners.lookup other = some id →
      ∃ symbol, before.get? other = some symbol) :
    Selected owners before after (old :: symbols) ((old, ⟨before.size⟩) :: rest)
      (old :: replaced) := by
  have still (other : SymbolId) (inside : other ∈ replaced) : ∃ id symbol,
      owners.lookup other = some id ∧ before.get? other = some symbol ∧ symbol.kind ≠ .cls := by
    obtain ⟨id', symbol', owned', foundLater, replaceable'⟩ := selected.owned other inside
    obtain ⟨same, found'⟩ := known other (selected.sublist.subset inside) id' owned'
    rw [SymbolTable.get?_push_of_get? found'] at foundLater
    obtain rfl := Option.some.inj foundLater
    exact ⟨id', same, owned', found', replaceable'⟩
  refine ⟨selected.sublist.cons_cons old, ?_, ?_, ?_⟩
  · intro other inside
    rcases List.mem_cons.1 inside with rfl | inside
    · exact ⟨id, symbol, owned, found, replaceable⟩
    · exact still other inside
  · rw [List.map_cons, SymbolId.allotted_cons_self, selected.entries]
    refine congrArg (List.cons _) (List.map_congr_left fun other inside => ?_)
    have differs : other ≠ old := fun same => new (same ▸ inside)
    rw [SymbolId.allotted_cons_of_ne differs, SymbolTable.size_push]
  · rw [SymbolTable.withStandIns_cons found fun other inside => ?_, selected.table]
    obtain ⟨_, symbol', _, found', _⟩ := still other inside
    exact ⟨symbol', found'⟩

theorem exists_selected {symbols : List SymbolId} {entries : List (SymbolId × SymbolId)}
    {before after : CopyState Judge.Memory} (distinct : symbols.Nodup)
    (known : ∀ old ∈ symbols, ∀ id, owners.lookup old = some id →
      ∃ symbol, before.symbols.get? old = some symbol)
    (run : (symbols.mapM (entry (selective judge) owners)).run before = .ok entries after) :
    ∃ replaced, Selected owners before.symbols after.symbols symbols entries replaced := by
  induction symbols generalizing entries before with
  | nil =>
    obtain ⟨rfl, rfl⟩ := EStateM.Result.ok.inj run
    exact ⟨[], ⟨.refl [], (fun _ inside => nomatch inside), rfl,
      (SymbolTable.withStandIns_nil _).symm⟩⟩
  | cons old symbols ih =>
    obtain ⟨new, rest, middle, settled, others, rfl⟩ := mapM_entry_cons_run run
    rw [List.nodup_cons] at distinct
    have knownRest := fun other inside => known other (List.mem_cons_of_mem old inside)
    have kept (same : new = old) (unchanged : middle.symbols = before.symbols) :
        ∃ replaced, Selected owners before.symbols after.symbols (old :: symbols)
          ((old, new) :: rest) replaced := by
      rw [← unchanged] at knownRest ⊢
      obtain ⟨replaced, selected⟩ := ih distinct.2 knownRest others
      rw [same]
      exact ⟨replaced, selected.kept distinct.1⟩
    cases owner : owners.lookup old with
    | none =>
      obtain ⟨same, unchanged⟩ := settle_run_of_foreign owner settled
      exact kept same (congrArg CopyState.symbols unchanged)
    | some id =>
      obtain ⟨transformed, -, replacement⟩ := settle_run_of_owned owner settled
      rcases SymbolTable.replacementFor_eq_ok_iff.1 replacement with
        ⟨-, symbol, found, replaceable, rfl, pushed⟩ | ⟨-, same, unchanged⟩
      · have knownLater (other : SymbolId) (inside : other ∈ symbols) (id : DeclId)
            (owned : owners.lookup other = some id) :
            ∃ symbol, middle.symbols.get? other = some symbol := by
          obtain ⟨symbol', found'⟩ := knownRest other inside id owned
          rw [pushed]
          exact ⟨symbol', SymbolTable.get?_push_of_get? found' _⟩
        obtain ⟨replaced, selected⟩ := ih distinct.2 knownLater others
        rw [pushed] at selected
        exact ⟨_, selected.placed distinct.1 owner found replaceable knownRest⟩
      · exact kept same unchanged

/-- Every declaration is judged on a table that has only grown, and its symbol is replaced or stays as
that verdict has it. -/
theorem exists_ruling_of_entry {symbols : List SymbolId} {entries : List (SymbolId × SymbolId)}
    {before after : CopyState Judge.Memory} (recalls : judge.Recalls before.symbols before.memory)
    (run : (symbols.mapM (entry (selective judge) owners)).run before = .ok entries after)
    {id : DeclId} (listed : (old, new) ∈ entries) (owned : owners.lookup old = some id) :
    ∃ table transformed last, table.Keeps before.symbols ∧ judge.ruling table id = .ok transformed ∧
      table.replacementFor old transformed = .ok (new, last) := by
  induction symbols generalizing entries before with
  | nil =>
    obtain ⟨rfl, rfl⟩ := EStateM.Result.ok.inj run
    exact nomatch listed
  | cons first symbols ih =>
    obtain ⟨place, rest, middle, settled, others, rfl⟩ := mapM_entry_cons_run run
    cases owner : owners.lookup first with
    | none =>
      obtain ⟨same, rfl⟩ := settle_run_of_foreign owner settled
      rcases List.mem_cons.1 listed with here | later
      · obtain ⟨rfl, rfl⟩ := Prod.mk.inj here
        exact nomatch owned.symm.trans owner
      · exact ih recalls others later
    | some decl =>
      obtain ⟨transformed, judged, replacement⟩ := settle_run_of_owned owner settled
      have yields := Judge.verdict_yields judge before.symbols decl
      obtain ⟨ruled, recallsNext⟩ := yields.eq_ok recalls judged
      rcases List.mem_cons.1 listed with here | later
      · obtain ⟨rfl, rfl⟩ := Prod.mk.inj here
        obtain rfl := Option.some.inj (owned.symm.trans owner)
        exact ⟨_, transformed, _, .refl _, ruled, replacement⟩
      · have keeps := SymbolTable.Keeps.of_replacementFor replacement
        obtain ⟨table, verdict, last, keepsRest, decided⟩ :=
          ih (keeps.recalls recallsNext) others later
        exact ⟨table, verdict, last, keeps.trans keepsRest, decided⟩

end Relabel.Chooser
