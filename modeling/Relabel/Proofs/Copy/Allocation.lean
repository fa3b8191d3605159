import Relabel.Proofs.Copy.Isomorphism
import Relabel.Proofs.Copy.Selective

namespace Relabel

namespace DeclTree

/-- What a selective copy has done: the tree is copied, and the symbols in `replaced` have got new
ones. -/
structure SelectivelyCopied (tree : DeclTree) (before after : SymbolTable) (copy : Copy)
    (owners : List (SymbolId × DeclId)) (replaced : List SymbolId) : Prop where
  indexed : tree.Indexed owners
  copiedTo : tree.CopiedTo copy (DeclId.placeIn tree.postorder)
  selected : Chooser.Selected owners before.takeTree.2 after tree.symbolsInUse.eraseDups
    copy.substitution.entries replaced

variable {tree : DeclTree} {predicate : TypePredicate} {before after : RelabelState} {copy : Copy}

theorem copy_run_eq_ok_iff : (tree.copy predicate).run before = .ok copy after ↔
    ∃ last, (tree.copyWith (.selective ⟨tree, predicate⟩)).run
        { symbols := before.symbols, memory := { consulted := before.consulted } } = .ok copy last ∧
      after = ⟨last.symbols, last.memory.consulted⟩ := by
  rw [DeclTree.copy, Pass.run_within_eq_ok_iff]
  simp only [eq_comm]

theorem exists_selectivelyCopied
    (known : ∀ id decl, tree.Reachable id → tree.get? id = some decl →
      ∃ symbol, before.symbols.get? decl.symbol = some symbol)
    (run : (tree.copy predicate).run before = .ok copy after) :
    ∃ owners replaced,
      tree.SelectivelyCopied before.symbols after.symbols copy owners replaced := by
  obtain ⟨last, walked, rfl⟩ := copy_run_eq_ok_iff.1 run
  obtain ⟨owners, copied⟩ := exists_copied_of_copyWith walked
  have owned (old : SymbolId) (_ : old ∈ tree.symbolsInUse.eraseDups) (id : DeclId)
      (owner : owners.lookup old = some id) :
      ∃ symbol, before.symbols.takeTree.2.get? old = some symbol := by
    obtain ⟨reached, decl, found, rfl⟩ := (copied.indexed.lookup old id).1 owner
    exact known id decl reached found
  obtain ⟨replaced, selected⟩ := Chooser.exists_selected (nodup_eraseDups _) owned copied.entries
  exact ⟨owners, replaced, copied.indexed, copied.copiedTo, selected⟩

namespace SelectivelyCopied

variable {before after : SymbolTable} {owners : List (SymbolId × DeclId)} {replaced : List SymbolId}

theorem mem_entries_iff (copied : tree.SelectivelyCopied before after copy owners replaced)
    {old new : SymbolId} : (old, new) ∈ copy.substitution.entries ↔
      old ∈ tree.symbolsInUse ∧ new = old.allotted before.size replaced := by
  rw [copied.selected.entries, List.mem_map]
  constructor
  · intro listed
    obtain ⟨_, inUse, same⟩ := listed
    obtain ⟨rfl, rfl⟩ := Prod.mk.inj same
    exact ⟨List.mem_eraseDups.1 inUse, rfl⟩
  · intro both
    obtain ⟨inUse, rfl⟩ := both
    exact ⟨old, List.mem_eraseDups.2 inUse, rfl⟩

theorem get?_eq_some_iff (copied : tree.SelectivelyCopied before after copy owners replaced)
    {old new : SymbolId} : copy.substitution.get? old = some new ↔
      old ∈ tree.symbolsInUse ∧ new = old.allotted before.size replaced := by
  have keys : copy.substitution.entries.map Prod.fst = tree.symbolsInUse.eraseDups := by
    rw [copied.selected.entries, List.map_map]
    exact List.map_id _
  rw [Substitution.get?, lookup_eq_some_iff_mem (by rw [keys]; exact nodup_eraseDups _),
    copied.mem_entries_iff]

theorem mem_symbolsInUse (copied : tree.SelectivelyCopied before after copy owners replaced)
    {id : DeclId} {decl : Decl} (reached : tree.Reachable id) (found : tree.get? id = some decl)
    {symbol : SymbolId} (stands : symbol ∈ decl.symbols) : symbol ∈ tree.symbolsInUse :=
  (mem_symbolsInUse_iff copied.indexed.fits).2 ⟨id, reached, decl, found, stands⟩

theorem lt_size_of_mem_replaced (copied : tree.SelectivelyCopied before after copy owners replaced)
    {old : SymbolId} (inside : old ∈ replaced) : old.index < before.size := by
  obtain ⟨-, symbol, -, known, -⟩ := copied.selected.owned old inside
  exact SymbolTable.lt_size_of_get? known

theorem known_of_mem_replaced (copied : tree.SelectivelyCopied before after copy owners replaced)
    (old : SymbolId) (inside : old ∈ replaced) :
    ∃ symbol, before.takeTree.2.get? old = some symbol := by
  obtain ⟨-, symbol, -, known, -⟩ := copied.selected.owned old inside
  exact ⟨symbol, known⟩

theorem size_after (copied : tree.SelectivelyCopied before after copy owners replaced) :
    after.size = before.size + replaced.length := by
  rw [copied.selected.table, SymbolTable.size_withStandIns copied.known_of_mem_replaced]
  rfl

theorem distinct (copied : tree.SelectivelyCopied before after copy owners replaced) :
    replaced.Nodup :=
  (nodup_eraseDups _).sublist copied.selected.sublist

/-- The replaced symbols have got the added ones, in their order. -/
theorem get?_of_getElem? (copied : tree.SelectivelyCopied before after copy owners replaced)
    {index : Nat} {old : SymbolId} (listed : replaced[index]? = some old) :
    copy.substitution.get? old = some ⟨before.size + index⟩ := by
  have inside := List.mem_of_getElem? listed
  have inUse := List.mem_eraseDups.1 (copied.selected.sublist.subset inside)
  obtain ⟨bound, same⟩ := List.getElem?_eq_some_iff.1 listed
  have place : replaced.idxOf old = index := by
    rw [← same]
    exact copied.distinct.idxOf_getElem index bound
  rw [copied.get?_eq_some_iff, SymbolId.allotted_of_mem inside, place]
  exact ⟨inUse, rfl⟩

/-- The symbol in the place of a known one stands in for it, or is still that one. -/
theorem get?_allotted (copied : tree.SelectivelyCopied before after copy owners replaced)
    {old : SymbolId} {symbol : Symbol} (known : before.get? old = some symbol) :
    after.get? (old.allotted before.size replaced) =
      some (if old ∈ replaced then symbol.standIn else symbol) := by
  rw [copied.selected.table]
  by_cases inside : old ∈ replaced
  · have listed : replaced[replaced.idxOf old]? = some old := List.getElem?_idxOf inside
    rw [SymbolId.allotted_of_mem inside, if_pos inside]
    exact SymbolTable.get?_withStandIns_new copied.known_of_mem_replaced listed known
  · rw [SymbolId.allotted_of_not_mem inside, if_neg inside]
    exact SymbolTable.get?_withStandIns_of_get? known replaced

theorem isReplaced_eq_true_iff (copied : tree.SelectivelyCopied before after copy owners replaced)
    {old : SymbolId} : copy.substitution.isReplaced old = true ↔ old ∈ replaced := by
  rw [Substitution.isReplaced_eq_true_iff]
  constructor
  · intro other
    obtain ⟨new, entry, differs⟩ := other
    obtain ⟨-, rfl⟩ := copied.get?_eq_some_iff.1 entry
    by_contra outside
    exact differs (SymbolId.allotted_of_not_mem outside)
  · intro inside
    have inUse := List.mem_eraseDups.1 (copied.selected.sublist.subset inside)
    have below := copied.lt_size_of_mem_replaced inside
    exact ⟨_, copied.get?_eq_some_iff.2 ⟨inUse, rfl⟩, (SymbolId.allotted_ne_iff below).2 inside⟩

end SelectivelyCopied

/-- How a copy has changed the table of symbols: for each declaration in `replaced`, in this order, a
placeholder is added at the end, which stands in for the symbol of the declaration. -/
structure Allocated (tree : DeclTree) (before after : SymbolTable) (copy : Copy)
    (replaced : List DeclId) : Prop where
  distinct : replaced.Nodup
  mem_iff : ∀ id, id ∈ replaced ↔ tree.Reachable id ∧
    ∃ decl, tree.get? id = some decl ∧ copy.substitution.isReplaced decl.symbol = true
  nextTree : after.nextTree = before.nextTree + 1
  size : after.size = before.size + replaced.length
  old : ∀ id symbol, before.get? id = some symbol → after.get? id = some symbol
  new : ∀ index id, replaced[index]? = some id → ∃ decl symbol, tree.get? id = some decl ∧
    before.get? decl.symbol = some symbol ∧
    copy.substitution.get? decl.symbol = some ⟨before.size + index⟩ ∧
    after.get? ⟨before.size + index⟩ = some symbol.standIn

namespace SelectivelyCopied

variable {before after : SymbolTable} {owners : List (SymbolId × DeclId)} {replaced : List SymbolId}

/-- The declarations of the replaced symbols are those that have got placeholders. -/
theorem allocated (copied : tree.SelectivelyCopied before after copy owners replaced) :
    tree.Allocated before after copy (replaced.filterMap fun old => owners.lookup old) := by
  have owned (old : SymbolId) (inside : old ∈ replaced) : ∃ id, owners.lookup old = some id := by
    obtain ⟨id, -, owner, -⟩ := copied.selected.owned old inside
    exact ⟨id, owner⟩
  refine ⟨?_, fun id => ?_, ?_, ?_, fun id symbol found => ?_, fun index id listed => ?_⟩
  · refine copied.distinct.filterMap fun first second id one other => ?_
    obtain ⟨-, decl, found, rfl⟩ := (copied.indexed.lookup first id).1 one
    obtain ⟨-, decl', found', rfl⟩ := (copied.indexed.lookup second id).1 other
    rw [Option.some.inj (found.symm.trans found')]
  · simp only [List.mem_filterMap, copied.isReplaced_eq_true_iff, copied.indexed.lookup]
    constructor
    · intro inside
      obtain ⟨old, inside, reached, decl, found, rfl⟩ := inside
      exact ⟨reached, decl, found, inside⟩
    · intro both
      obtain ⟨reached, decl, found, inside⟩ := both
      exact ⟨decl.symbol, inside, reached, decl, found, rfl⟩
  · rw [copied.selected.table]
    rfl
  · rw [copied.size_after, length_filterMap_of_known owned]
  · rw [copied.selected.table]
    exact SymbolTable.get?_withStandIns_of_get? found replaced
  · rw [getElem?_filterMap_of_known owned, Option.bind_eq_some_iff] at listed
    obtain ⟨old, here, owner⟩ := listed
    obtain ⟨reached, decl, found, rfl⟩ := (copied.indexed.lookup old id).1 owner
    obtain ⟨symbol, data⟩ :=
      copied.known_of_mem_replaced decl.symbol (List.mem_of_getElem? here)
    refine ⟨decl, symbol, found, data, copied.get?_of_getElem? here, ?_⟩
    rw [copied.selected.table]
    exact SymbolTable.get?_withStandIns_new copied.known_of_mem_replaced here data

end SelectivelyCopied

/-- A copy judges every declaration on a table that has only grown, and replaces its symbol or not as
that verdict has it. -/
theorem exists_decision_of_copy (run : (tree.copy predicate).run before = .ok copy after)
    {id : DeclId} {decl : Decl} (reached : tree.Reachable id) (found : tree.get? id = some decl) :
    ∃ table transformed new last, table.Keeps before.symbols ∧
      (Judge.mk tree predicate).ruling table id = .ok transformed ∧
      copy.substitution.get? decl.symbol = some new ∧
      table.replacementFor decl.symbol transformed = .ok (new, last) := by
  obtain ⟨last, walked, rfl⟩ := copy_run_eq_ok_iff.1 run
  obtain ⟨owners, copied⟩ := exists_copied_of_copyWith walked
  have owner : owners.lookup decl.symbol = some id :=
    (copied.indexed.lookup _ _).2 ⟨reached, decl, found, rfl⟩
  obtain ⟨new, entry⟩ := copied.exists_get? reached found List.mem_cons_self
  obtain ⟨table, transformed, last, keeps, ruled, replacement⟩ :=
    Chooser.exists_ruling_of_entry (Judge.recalls_empty _) copied.entries (mem_of_lookup entry) owner
  exact ⟨table, transformed, new, last, keeps, ruled, entry, replacement⟩

/-- Where all that matters to a ruling is known at the start, a copy decides as a new judge does on the
table at the start. -/
theorem exists_ruling_of_informed (run : (tree.copy predicate).run before = .ok copy after)
    {id : DeclId} {decl : Decl} {symbol : Symbol} (reached : tree.Reachable id)
    (found : tree.get? id = some decl) (known : before.symbols.get? decl.symbol = some symbol)
    (informed : (Judge.mk tree predicate).Informed before.symbols id) :
    ∃ transformed, (Judge.mk tree predicate).ruling before.symbols id = .ok transformed ∧
      ∃ new, copy.substitution.get? decl.symbol = some new ∧
        (new ≠ decl.symbol ↔ transformed = true ∧ symbol.kind ≠ .cls) := by
  obtain ⟨table, transformed, new, last, keeps, ruled, entry, replacement⟩ :=
    exists_decision_of_copy run reached found
  obtain ⟨same, knownLater, kind, -⟩ := keeps decl.symbol symbol known
  have decided := SymbolTable.ne_iff_of_replacementFor knownLater replacement
  rw [keeps.ruling_of_informed informed] at ruled
  rw [kind] at decided
  exact ⟨transformed, ruled, new, entry, decided⟩

/-- Whatever is asked in whatever order while the table grows, a copy decides as a new judge does on the
table at the start. -/
theorem exists_ruling_of_copy
    (arena : ∀ id decl, tree.get? id = some decl →
      ∃ symbol, before.symbols.get? decl.symbol = some symbol)
    (run : (tree.copy predicate).run before = .ok copy after) {id : DeclId} {decl : Decl}
    {symbol : Symbol} (reached : tree.Reachable id) (found : tree.get? id = some decl)
    (known : before.symbols.get? decl.symbol = some symbol) :
    ∃ transformed, (Judge.mk tree predicate).ruling before.symbols id = .ok transformed ∧
      ∃ new, copy.substitution.get? decl.symbol = some new ∧
        (new ≠ decl.symbol ↔ transformed = true ∧ symbol.kind ≠ .cls) :=
  exists_ruling_of_informed run reached found known
    ⟨fun decl => arena id decl, fun _ container around _ _ => arena container around⟩

/-- A copy replaces the symbols of exactly those declarations that a new judge finds transformed and
that are no classes, and it changes nothing else. -/
theorem replaced_iff_transformed_of_copy (tree : DeclTree) (predicate : TypePredicate)
    (before after : RelabelState) (copy : Copy)
    (arena : ∀ id decl, tree.get? id = some decl →
      ∃ symbol, before.symbols.get? decl.symbol = some symbol)
    (run : (tree.copy predicate).run before = .ok copy after) :
    (∀ id decl symbol, tree.Reachable id → tree.get? id = some decl →
      before.symbols.get? decl.symbol = some symbol →
      ∃ new, copy.substitution.get? decl.symbol = some new ∧
        (new ≠ decl.symbol ↔
          (∃ memory, ((Judge.mk tree predicate).verdict before.symbols id).run {} =
            .ok true memory) ∧ symbol.kind ≠ .cls)) ∧
    ∃ replaced, tree.Allocated before.symbols after.symbols copy replaced := by
  constructor
  · intro id decl symbol reached found known
    obtain ⟨transformed, ruled, new, entry, decided⟩ :=
      exists_ruling_of_copy arena run reached found known
    rw [Judge.verdict_run_eq_ok_iff, ruled, Except.ok.injEq]
    exact ⟨new, entry, decided⟩
  · obtain ⟨owners, replaced, copied⟩ :=
      exists_selectivelyCopied (fun id decl _ found => arena id decl found) run
    exact ⟨_, copied.allocated⟩

theorem replaced_iff_transformed_of_copy_sample : ∃ copy after,
    (sample.copy (.marked ⟨9⟩)).run ⟨sampleSymbols, []⟩ = .ok copy after ∧
      (∃ new, copy.substitution.get? ⟨7⟩ = some new ∧ new ≠ ⟨7⟩) ∧
      ∃ replaced, sample.Allocated sampleSymbols after.symbols copy replaced := by
  have done : (sample.copy (.marked ⟨9⟩)).succeeds ⟨sampleSymbols, []⟩ = true := by decide +kernel
  obtain ⟨copy, after, run⟩ := Pass.succeeds_eq_true_iff.1 done
  obtain ⟨decided, allocated⟩ := replaced_iff_transformed_of_copy sample _ _ after copy
    (fun _ _ found => exists_get?_sampleSymbols found List.mem_cons_self) run
  have transformed : (Judge.mk sample (.marked ⟨9⟩)).ruling sampleSymbols ⟨7⟩ = .ok true := rfl
  obtain ⟨new, entry, differs⟩ := decided ⟨7⟩ _ _ (.root (by decide)) rfl rfl
  exact ⟨copy, after, run,
    ⟨new, entry, differs.2 ⟨Judge.verdict_run_eq_ok_iff.2 transformed, by decide⟩⟩, allocated⟩

end DeclTree

end Relabel
