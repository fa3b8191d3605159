import Relabel.Proofs.Copy.Hygiene
import Relabel.Proofs.Copy.Images
import Relabel.Proofs.Copy.Success
import Relabel.Proofs.RenamingLaws
import Relabel.Proofs.Symbol.Exchange
import Relabel.Proofs.Tree.Reordered

namespace Relabel

/-- Where a declaration placed in one order lies in another one. -/
def DeclId.renumbered (first second : List DeclId) (there : DeclId) : DeclId :=
  ((first[there.index]?).map (DeclId.placeIn second)).getD there

theorem DeclId.renumbered_placeIn {first : List DeclId} {id : DeclId} (inside : id ∈ first)
    (second : List DeclId) : (id.placeIn first).renumbered first second = id.placeIn second := by
  rw [placeIn, renumbered, List.getElem?_idxOf inside]
  rfl

namespace DeclTree

/-- A ruling looks at the declarations alone. -/
theorem Reordered.ruling {tree other : DeclTree} (reordered : tree.Reordered other)
    (predicate : TypePredicate) (symbols : SymbolTable) (id : DeclId) :
    (Judge.mk other predicate).ruling symbols id = (Judge.mk tree predicate).ruling symbols id := by
  obtain ⟨treeId, decls, roots⟩ := other
  obtain rfl : treeId = tree.id := reordered.id
  obtain rfl : decls = tree.decls := reordered.decls
  rfl

/-- The symbols that a copy replaces are told by new judges on the table at the start. -/
theorem mem_replaced_iff {tree : DeclTree} {predicate : TypePredicate}
    {before after : RelabelState} {copy : Copy} {owners : List (SymbolId × DeclId)}
    {replaced : List SymbolId}
    (informed : ∀ id, tree.Reachable id → (Judge.mk tree predicate).Informed before.symbols id)
    (run : (tree.copy predicate).run before = .ok copy after)
    (copied : tree.SelectivelyCopied before.symbols after.symbols copy owners replaced)
    {old : SymbolId} : old ∈ replaced ↔ ∃ id decl symbol, tree.Reachable id ∧
      tree.get? id = some decl ∧ decl.symbol = old ∧ before.symbols.get? old = some symbol ∧
      symbol.kind.replaceable = true ∧
      (Judge.mk tree predicate).ruling before.symbols id = .ok true := by
  constructor
  · intro inside
    obtain ⟨id, symbol, owner, known, -⟩ := copied.selected.owned old inside
    obtain ⟨reached, decl, found, rfl⟩ := (copied.indexed.lookup old id).1 owner
    obtain ⟨transformed, image, imaged⟩ := exists_imaged informed run reached found known
    have both := imaged.isReplaced
    rw [copied.isReplaced_eq_true_iff.2 inside, eq_comm, Bool.and_eq_true] at both
    obtain ⟨rfl, replaceable⟩ := both
    exact ⟨id, decl, symbol, reached, found, rfl, known, replaceable, imaged.ruled⟩
  · intro told
    obtain ⟨id, decl, symbol, reached, found, rfl, known, replaceable, ruled⟩ := told
    obtain ⟨transformed, image, imaged⟩ := exists_imaged informed run reached found known
    obtain rfl := Except.ok.inj (imaged.ruled.symm.trans ruled)
    rw [← copied.isReplaced_eq_true_iff, imaged.isReplaced, replaceable]
    rfl

end DeclTree

/-- Renames the symbols of a declaration and renumbers the declarations around it and in it. -/
def Decl.moved (exchange : SymbolId → SymbolId) (renumber : DeclId → DeclId) (decl : Decl) : Decl :=
  { decl.rename exchange renumber with container := decl.container.map renumber }

/-- Two copies of one declaration differ in nothing but the new symbols and the places. -/
theorem Decl.CopiedAs.eq_moved {decl first second : Decl} {settled settledSecond : Substitution}
    {place placeSecond : DeclId → DeclId} {exchange : SymbolId → SymbolId}
    {renumber : DeclId → DeclId} (copied : decl.CopiedAs first settled place)
    (copiedSecond : decl.CopiedAs second settledSecond placeSecond)
    (symbols : ∀ symbol ∈ decl.symbols,
      exchange (settled.apply symbol) = settledSecond.apply symbol)
    (decls : ∀ child ∈ decl.form.children, renumber (place child) = placeSecond child)
    (container : second.container = first.container.map renumber) :
    second = first.moved exchange renumber := by
  have agree (occurrence : Occurrence) (inside : occurrence ∈ decl.form.occurrences) :
      occurrence.rename settledSecond.apply placeSecond =
        occurrence.rename (exchange ∘ settled.apply) (renumber ∘ place) := by
    cases occurrence with
    | symbol id =>
      have stands : id ∈ decl.symbols :=
        List.mem_cons_of_mem _ (List.mem_filterMap.2 ⟨_, inside, rfl⟩)
      exact congrArg Occurrence.symbol (symbols id stands).symm
    | decl id =>
      have listed : id ∈ decl.form.children := by
        rw [← DeclForm.decls_of_occurrences]
        exact List.mem_filterMap.2 ⟨_, inside, rfl⟩
      exact congrArg Occurrence.decl (decls id listed).symm
  have form : second.form = first.form.rename exchange renumber := by
    rw [copiedSecond.form, copied.form, DeclForm.rename_rename]
    exact DeclForm.rename_congr agree
  have symbol : second.symbol = exchange first.symbol := by
    rw [copiedSecond.symbol, copied.symbol, symbols decl.symbol List.mem_cons_self]
  have span := copiedSecond.span.trans copied.span.symm
  have visibility := copiedSecond.visibility.trans copied.visibility.symm
  have modifiers := copiedSecond.modifiers.trans copied.modifiers.symm
  have annotations := copiedSecond.annotations.trans copied.annotations.symm
  cases second
  rw [moved, rename, Decl.mk.injEq]
  exact ⟨symbol, form, container, span, visibility, modifiers, annotations⟩

namespace DeclTree

/-- A second copy of what is under the roots is the first one with the new symbols exchanged and the
declarations renumbered. -/
structure Exchanged (tree : DeclTree) (before : SymbolTable) (first second : Copy)
    (afterFirst afterSecond : SymbolTable) (placeFirst placeSecond : DeclId → DeclId)
    (exchange : SymbolId → SymbolId) (renumber : DeclId → DeclId) : Prop where
  old : ∀ id, id.index < before.size → exchange id = id
  new : Set.BijOn exchange {id | before.size ≤ id.index ∧ id.index < afterFirst.size}
    {id | before.size ≤ id.index ∧ id.index < afterSecond.size}
  data : ∀ id, id.index < afterFirst.size → afterSecond.get? (exchange id) = afterFirst.get? id
  entries : ∀ symbol new, first.substitution.get? symbol = some new →
    second.substitution.get? symbol = some (exchange new)
  places : Set.BijOn renumber {id | id.index < first.tree.size} {id | id.index < second.tree.size}
  renumbered : ∀ id, tree.Reachable id → renumber (placeFirst id) = placeSecond id
  images : ∀ id, tree.Reachable id → ∃ image, first.tree.get? (placeFirst id) = some image ∧
    second.tree.get? (placeSecond id) = some (image.moved exchange renumber)

section Twice

variable {tree other : DeclTree} {before afterFirst afterSecond : SymbolTable} {first second : Copy}
  {ownersFirst ownersSecond : List (SymbolId × DeclId)} {replacedFirst replacedSecond : List SymbolId}

/-- The containers of copies correspond as the copies do. -/
theorem container_renumbered {placeFirst placeSecond : DeclId → DeclId}
    {renumber : DeclId → DeclId} (reordered : tree.Reordered other) (toFirst : tree.CopiedTo first placeFirst)
    (toSecond : other.CopiedTo second placeSecond) (nestedFirst : first.tree.Nested)
    (nestedSecond : second.tree.Nested)
    (renumbered : ∀ id, tree.Reachable id → renumber (placeFirst id) = placeSecond id)
    {id : DeclId} {image imageSecond : Decl} (reached : tree.Reachable id)
    (found : first.tree.get? (placeFirst id) = some image)
    (foundSecond : second.tree.get? (placeSecond id) = some imageSecond) :
    imageSecond.container = image.container.map renumber := by
  cases reached with
  | root listed =>
    have top := reordered.roots.mem_iff.1 listed
    rw [toFirst.container_of_root nestedFirst listed found,
      toSecond.container_of_root nestedSecond top foundSecond]
    rfl
  | @child parent _ around reached foundParent listed =>
    have foundOther := (reordered.get? parent).trans foundParent
    rw [toFirst.container_of_child nestedFirst reached foundParent listed found,
      toSecond.container_of_child nestedSecond (reordered.reachable reached) foundOther listed
        foundSecond, Option.map_some, renumbered parent reached]

section Replaced

variable (copiedFirst : tree.SelectivelyCopied before afterFirst first ownersFirst replacedFirst)
  (copiedSecond : other.SelectivelyCopied before afterSecond second ownersSecond replacedSecond)

include copiedFirst copiedSecond

theorem mem_symbolsInUse_reordered_iff (reordered : tree.Reordered other) {symbol : SymbolId} :
    symbol ∈ other.symbolsInUse ↔ symbol ∈ tree.symbolsInUse := by
  rw [mem_symbolsInUse_iff copiedFirst.indexed.fits, mem_symbolsInUse_iff copiedSecond.indexed.fits]
  simp only [reordered.reachable_iff, reordered.get?]

variable (permuted : replacedFirst.Perm replacedSecond)

include permuted

/-- New symbols that are exchanged stand in for the same symbol. -/
theorem get?_exchanged_eq {id : SymbolId} (inside : id.index < afterFirst.size) :
    afterSecond.get? (id.exchanged before.size replacedFirst replacedSecond) =
      afterFirst.get? id := by
  by_cases below : id.index < before.size
  · have isSome : (before.get? id).isSome := (SymbolTable.get?_isSome_iff before id).2 below
    obtain ⟨symbol, here⟩ := Option.isSome_iff_exists.1 isSome
    rw [SymbolId.exchanged_of_lt below, copiedFirst.selected.table, copiedSecond.selected.table]
    have first := SymbolTable.get?_withStandIns_of_get? here replacedFirst
    have second := SymbolTable.get?_withStandIns_of_get? here replacedSecond
    exact second.trans first.symm
  · rw [copiedFirst.size_after] at inside
    have new := SymbolId.bijOn_allotted copiedFirst.distinct fun _ => copiedFirst.lt_size_of_mem_replaced
    obtain ⟨old, moved, rfl⟩ := new.surjOn ⟨Nat.le_of_not_lt below, inside⟩
    have listed : old ∈ replacedFirst := moved
    obtain ⟨symbol, here⟩ := copiedFirst.known_of_mem_replaced old listed
    have low := copiedFirst.lt_size_of_mem_replaced listed
    rw [SymbolId.exchanged_allotted low permuted.mem_iff, copiedFirst.get?_allotted here,
      copiedSecond.get?_allotted here, if_pos listed, if_pos (permuted.mem_iff.1 listed)]

variable (reordered : tree.Reordered other)
  (known : ∀ id decl, tree.Reachable id → tree.get? id = some decl →
    ∀ symbol ∈ decl.symbols, ∃ data, before.get? symbol = some data)

include reordered known

/-- What takes the place of a symbol in one copy is exchanged for what does so in the other. -/
theorem get?_exchanged {symbol new : SymbolId} (entry : first.substitution.get? symbol = some new) :
    second.substitution.get? symbol =
      some (new.exchanged before.size replacedFirst replacedSecond) := by
  obtain ⟨inUse, rfl⟩ := copiedFirst.get?_eq_some_iff.1 entry
  have below := copiedFirst.lt_size_of_get?_substitution known entry
  rw [SymbolId.exchanged_allotted below permuted.mem_iff, copiedSecond.get?_eq_some_iff]
  exact ⟨(mem_symbolsInUse_reordered_iff copiedFirst copiedSecond reordered).2 inUse, rfl⟩

theorem exchanged_of_copiedTwice (nestedFirst : first.tree.Nested)
    (nestedSecond : second.tree.Nested) :
    tree.Exchanged before first second afterFirst afterSecond (DeclId.placeIn tree.postorder)
      (DeclId.placeIn other.postorder)
      (SymbolId.exchanged before.size replacedFirst replacedSecond)
      (DeclId.renumbered tree.postorder other.postorder) := by
  have renumbered (id : DeclId) (reached : tree.Reachable id) :
      (id.placeIn tree.postorder).renumbered tree.postorder other.postorder =
        id.placeIn other.postorder :=
    DeclId.renumbered_placeIn ((copiedFirst.indexed.mem_postorder id).2 reached) other.postorder
  have sameReachable : {id | other.Reachable id} = {id | tree.Reachable id} :=
    Set.ext fun id => reordered.reachable_iff
  refine ⟨fun id => SymbolId.exchanged_of_lt, ?_, ?_, ?_, ?_, renumbered, ?_⟩
  · rw [copiedFirst.size_after, copiedSecond.size_after]
    exact SymbolId.bijOn_exchanged copiedFirst.distinct permuted fun _ =>
      copiedFirst.lt_size_of_mem_replaced
  · intro id inside
    exact get?_exchanged_eq copiedFirst copiedSecond permuted inside
  · intro symbol new entry
    exact get?_exchanged copiedFirst copiedSecond permuted reordered known entry
  · have places := copiedSecond.copiedTo.places
    rw [sameReachable] at places
    exact bijOn_of_comp copiedFirst.copiedTo.places places renumbered
  · intro id reached
    obtain ⟨decl, image, found, foundImage, copied⟩ := copiedFirst.copiedTo.decls id reached
    obtain ⟨imageSecond, foundSecond, again⟩ := copiedSecond.copiedTo.exists_image
      (reordered.reachable reached) ((reordered.get? id).trans found)
    refine ⟨image, foundImage, ?_⟩
    rw [foundSecond, Option.some.injEq]
    refine copied.eq_moved again (fun symbol stands => ?_) (fun child listed => ?_) ?_
    · obtain ⟨new, entry⟩ := copied.settled symbol stands
      have entrySecond := get?_exchanged copiedFirst copiedSecond permuted reordered known entry
      rw [Substitution.apply_eq_of_get? entry, Substitution.apply_eq_of_get? entrySecond]
    · exact renumbered child (reached.child found listed)
    · exact container_renumbered reordered copiedFirst.copiedTo copiedSecond.copiedTo nestedFirst
        nestedSecond renumbered reached foundImage foundSecond

end Replaced

end Twice

section Runs

variable {tree other : DeclTree} {predicate : TypePredicate} {before : RelabelState}
  (reordered : tree.Reordered other)

include reordered

theorem Reordered.exists_copy_run
    (informed : ∀ id, (Judge.mk tree predicate).Informed before.symbols id)
    (done : ∃ copy after, (tree.copy predicate).run before = .ok copy after) :
    ∃ copy after, (other.copy predicate).run before = .ok copy after := by
  have conditions := (exists_copy_run_iff fun id _ => informed id).1 done
  refine DeclTree.exists_copy_run (reordered.exists_declared conditions.1) fun id reached => ?_
  rw [reordered.ruling]
  exact conditions.2 id (reordered.reachable_iff.1 reached)

theorem Reordered.informed {symbols : SymbolTable}
    (arena : ∀ id decl, tree.get? id = some decl → ∃ symbol, symbols.get? decl.symbol = some symbol)
    (id : DeclId) : (Judge.mk other predicate).Informed symbols id := by
  refine informed_of_arena (fun id decl found => ?_) id
  exact arena id decl ((reordered.get? id).symm.trans found)

variable {first second : Copy} {afterFirst afterSecond : RelabelState}
  {ownersFirst ownersSecond : List (SymbolId × DeclId)} {replacedFirst replacedSecond : List SymbolId}

/-- In whatever order symbols are replaced, they are the same. -/
theorem Reordered.replaced_perm
    (arena : ∀ id decl, tree.get? id = some decl →
      ∃ symbol, before.symbols.get? decl.symbol = some symbol)
    (runFirst : (tree.copy predicate).run before = .ok first afterFirst)
    (runSecond : (other.copy predicate).run before = .ok second afterSecond)
    (copiedFirst : tree.SelectivelyCopied before.symbols afterFirst.symbols first ownersFirst
      replacedFirst)
    (copiedSecond : other.SelectivelyCopied before.symbols afterSecond.symbols second ownersSecond
      replacedSecond) : replacedFirst.Perm replacedSecond := by
  refine (List.perm_ext_iff_of_nodup copiedFirst.distinct copiedSecond.distinct).2 fun old => ?_
  rw [mem_replaced_iff (fun id _ => informed_of_arena arena id) runFirst copiedFirst,
    mem_replaced_iff (fun id _ => reordered.informed arena id) runSecond copiedSecond]
  simp only [reordered.reachable_iff, reordered.get?, reordered.ruling]

end Runs

/-- The order of the roots does not matter to a copy, though symbols are met, judged and replaced in
another order: a copy is possible or not, and two copies replace the same symbols and are the same
but for the numbers of new symbols and of declarations. -/
theorem copy_of_reordered (tree other : DeclTree) (predicate : TypePredicate)
    (before : RelabelState) (reordered : tree.Reordered other)
    (known : ∀ id decl, tree.get? id = some decl → ∀ symbol ∈ decl.symbols,
      ∃ data, before.symbols.get? symbol = some data) :
    ((∃ copy after, (tree.copy predicate).run before = .ok copy after) ↔
      ∃ copy after, (other.copy predicate).run before = .ok copy after) ∧
    ∀ first afterFirst second afterSecond,
      (tree.copy predicate).run before = .ok first afterFirst →
      (other.copy predicate).run before = .ok second afterSecond →
      (∀ symbol, (∃ new, first.substitution.get? symbol = some new) ↔
        ∃ new, second.substitution.get? symbol = some new) ∧
      (∀ symbol, first.substitution.isReplaced symbol = second.substitution.isReplaced symbol) ∧
      afterFirst.symbols.size = afterSecond.symbols.size ∧
      ∃ placeFirst placeSecond exchange renumber, tree.CopiedTo first placeFirst ∧
        other.CopiedTo second placeSecond ∧ tree.Exchanged before.symbols first second
          afterFirst.symbols afterSecond.symbols placeFirst placeSecond exchange renumber := by
  have arena (id : DeclId) (decl : Decl) (found : tree.get? id = some decl) :
      ∃ symbol, before.symbols.get? decl.symbol = some symbol :=
    known id decl found decl.symbol List.mem_cons_self
  refine ⟨⟨?_, ?_⟩, fun first afterFirst second afterSecond runFirst runSecond => ?_⟩
  · exact reordered.exists_copy_run (informed_of_arena arena)
  · exact reordered.symm.exists_copy_run (reordered.informed arena)
  · obtain ⟨ownersFirst, replacedFirst, copiedFirst⟩ :=
      exists_selectivelyCopied (fun id decl _ found => arena id decl found) runFirst
    obtain ⟨ownersSecond, replacedSecond, copiedSecond⟩ := exists_selectivelyCopied
      (fun id decl _ found => arena id decl ((reordered.get? id).symm.trans found)) runSecond
    have permuted :=
      reordered.replaced_perm arena runFirst runSecond copiedFirst copiedSecond
    refine ⟨fun symbol => ?_, fun symbol => ?_, ?_, _, _, _, _, copiedFirst.copiedTo,
      copiedSecond.copiedTo, exchanged_of_copiedTwice copiedFirst copiedSecond permuted reordered
        (fun id decl _ found => known id decl found) (laidOut_of_copy runFirst).nested
        (laidOut_of_copy runSecond).nested⟩
    · have inUse : symbol ∈ other.symbolsInUse ↔ symbol ∈ tree.symbolsInUse :=
        mem_symbolsInUse_reordered_iff copiedFirst copiedSecond reordered
      simp only [copiedFirst.get?_eq_some_iff, copiedSecond.get?_eq_some_iff, inUse,
        exists_and_left, exists_eq]
    · rw [Bool.eq_iff_iff, copiedFirst.isReplaced_eq_true_iff,
        copiedSecond.isReplaced_eq_true_iff, permuted.mem_iff]
    · rw [copiedFirst.size_after, copiedSecond.size_after, permuted.length_eq]

/-- With the roots the other way round, the call of the function stands after its declaration. -/
theorem copy_of_reordered_sample : ∃ first afterFirst second afterSecond,
    (sample.copy (.marked ⟨9⟩)).run ⟨sampleSymbols, []⟩ = .ok first afterFirst ∧
      (copy { sample with roots := [⟨7⟩, ⟨5⟩] } (.marked ⟨9⟩)).run ⟨sampleSymbols, []⟩ =
        .ok second afterSecond ∧
      first.substitution.isReplaced ⟨7⟩ = second.substitution.isReplaced ⟨7⟩ ∧
      afterFirst.symbols.size = afterSecond.symbols.size := by
  have reordered : sample.Reordered { sample with roots := [⟨7⟩, ⟨5⟩] } :=
    ⟨rfl, rfl, .swap _ _ _⟩
  have done : (sample.copy (.marked ⟨9⟩)).succeeds ⟨sampleSymbols, []⟩ = true := by decide +kernel
  obtain ⟨first, afterFirst, runFirst⟩ := Pass.succeeds_eq_true_iff.1 done
  obtain ⟨same, agree⟩ := copy_of_reordered sample _ (.marked ⟨9⟩) ⟨sampleSymbols, []⟩ reordered
    fun _ _ found _ stands => exists_get?_sampleSymbols found stands
  obtain ⟨second, afterSecond, runSecond⟩ := same.1 ⟨first, afterFirst, runFirst⟩
  obtain ⟨-, isReplaced, size, -⟩ := agree first afterFirst second afterSecond runFirst runSecond
  exact ⟨first, afterFirst, second, afterSecond, runFirst, runSecond, isReplaced ⟨7⟩, size⟩

end DeclTree

end Relabel
