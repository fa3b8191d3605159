import Mathlib.Data.Set.Function
import Relabel.Copy.Chooser
import Relabel.Proofs.Copy.Renaming

namespace Relabel

variable {σ : Type}

namespace DeclTree

theorem get?_add_of_get? {tree : DeclTree} {id : DeclId} {decl : Decl}
    (found : tree.get? id = some decl) (other : Decl) :
    ∃ container, (tree.add other).2.get? id = some { decl with container } := by
  have inside := lt_size_of_get? found
  have old : id ≠ ⟨tree.size⟩ := by
    intro same
    rw [same] at inside
    exact Nat.lt_irrefl _ inside
  rw [get?_add, if_neg old, found]
  split
  · exact ⟨some ⟨tree.size⟩, rfl⟩
  · exact ⟨decl.container, rfl⟩

theorem get?_addAll_of_get? {tree : DeclTree} {id : DeclId} {decl : Decl}
    (found : tree.get? id = some decl) (decls : List Decl) :
    ∃ container, (tree.addAll decls).get? id = some { decl with container } := by
  induction decls generalizing tree decl with
  | nil => exact ⟨decl.container, found⟩
  | cons other decls ih =>
    obtain ⟨_, still⟩ := get?_add_of_get? found other
    obtain ⟨container, last⟩ := ih still
    exact ⟨container, last⟩

/-- Later declarations change no more than the container of an added one. -/
theorem get?_addAll (tree : DeclTree) {decls : List Decl} {index : Nat} {decl : Decl}
    (listed : decls[index]? = some decl) :
    ∃ container, (tree.addAll decls).get? ⟨tree.size + index⟩ = some { decl with container } := by
  induction decls generalizing tree index with
  | nil => exact nomatch listed
  | cons first decls ih =>
    cases index with
    | zero =>
      obtain rfl : first = decl := Option.some.inj listed
      exact get?_addAll_of_get? ((get?_add tree first _).trans (if_pos rfl)) decls
    | succ index =>
      obtain ⟨container, last⟩ := ih (tree.add first).2 listed
      rw [size_add, Nat.add_right_comm, Nat.add_assoc] at last
      exact ⟨container, last⟩

theorem getElem?_copies {tree : DeclTree} {ids : List DeclId}
    (known : ∀ id ∈ ids, ∃ decl, tree.get? id = some decl) (substitution : Substitution)
    (order : List DeclId) (index : Nat) :
    (tree.copies substitution order ids)[index]? = (ids[index]?.bind tree.get?).map
      (Decl.rename substitution.apply (DeclId.placeIn order)) := by
  rw [copies, List.getElem?_map, getElem?_filterMap_of_known known]

section Renamed

variable {tree : DeclTree} {owners : List (SymbolId × DeclId)}

theorem size_renamed (indexed : tree.Indexed owners) (id : TreeId) (substitution : Substitution) :
    (tree.renamed id substitution).size = tree.postorder.length := by
  change (addAll _ _).size = _
  rw [size_addAll, length_copies indexed.known]
  exact Nat.zero_add _

/-- The declaration at the place of `id` is its copy, in some container. -/
theorem get?_renamed (indexed : tree.Indexed owners) (treeId : TreeId)
    (substitution : Substitution) {id : DeclId} {decl : Decl} (reached : tree.Reachable id)
    (found : tree.get? id = some decl) :
    ∃ container, (tree.renamed treeId substitution).get? (id.placeIn tree.postorder) = some
      { decl.rename substitution.apply (DeclId.placeIn tree.postorder) with container } := by
  have listed := (indexed.mem_postorder id).2 reached
  have copied : (tree.copies substitution tree.postorder tree.postorder)[tree.postorder.idxOf id]? =
      some (decl.rename substitution.apply (DeclId.placeIn tree.postorder)) := by
    rw [getElem?_copies indexed.known, List.getElem?_idxOf listed, Option.bind_some, found]
    rfl
  obtain ⟨container, last⟩ := get?_addAll { id := treeId } copied
  rw [show size { id := treeId } = 0 from rfl, Nat.zero_add] at last
  exact ⟨container, last⟩

theorem mapsTo_placeIn (indexed : tree.Indexed owners) :
    Set.MapsTo (DeclId.placeIn tree.postorder) {id | tree.Reachable id}
      {id | id.index < tree.postorder.length} := by
  intro id reached
  exact List.idxOf_lt_length_of_mem ((indexed.mem_postorder id).2 reached)

theorem injOn_placeIn (indexed : tree.Indexed owners) :
    Set.InjOn (DeclId.placeIn tree.postorder) {id | tree.Reachable id} := by
  intro first reached second _ same
  have index : tree.postorder.idxOf first = tree.postorder.idxOf second :=
    congrArg DeclId.index same
  exact (List.idxOf_inj ((indexed.mem_postorder first).2 reached)).1 index

theorem surjOn_placeIn (indexed : tree.Indexed owners) :
    Set.SurjOn (DeclId.placeIn tree.postorder) {id | tree.Reachable id}
      {id | id.index < tree.postorder.length} := by
  intro place inside
  refine ⟨tree.postorder.get ⟨place.index, inside⟩, ?_, ?_⟩
  · exact (indexed.mem_postorder _).1 (List.get_mem _ _)
  · exact congrArg DeclId.mk (indexed.nodup.idxOf_getElem _ inside)

theorem bijOn_placeIn (indexed : tree.Indexed owners) :
    Set.BijOn (DeclId.placeIn tree.postorder) {id | tree.Reachable id}
      {id | id.index < tree.postorder.length} :=
  ⟨mapsTo_placeIn indexed, injOn_placeIn indexed, surjOn_placeIn indexed⟩

end Renamed

end DeclTree

theorem Chooser.keys_of_entries {choose : Chooser σ} {declared : List (SymbolId × DeclId)}
    {symbols : List SymbolId} {entries : List (SymbolId × SymbolId)} {before after : CopyState σ}
    (run : (symbols.mapM (choose.entry declared)).run before = .ok entries after) :
    entries.map Prod.fst = symbols := by
  induction symbols generalizing entries before with
  | nil =>
    obtain ⟨rfl, -⟩ := EStateM.Result.ok.inj run
    rfl
  | cons symbol symbols ih =>
    obtain ⟨new, rest, middle, -, others, rfl⟩ := mapM_entry_cons_run run
    rw [List.map_cons, ih others]

/-- `image` is `decl` with every symbol in it, at any depth, replaced by its entry in `substitution`
and every declaration that it holds by the one at its `place`. -/
structure Decl.CopiedAs (decl image : Decl) (substitution : Substitution)
    (place : DeclId → DeclId) : Prop where
  settled : ∀ symbol ∈ decl.symbols, ∃ new, substitution.get? symbol = some new
  symbol : image.symbol = substitution.apply decl.symbol
  form : image.form = decl.form.rename substitution.apply place
  span : image.span = decl.span
  visibility : image.visibility = decl.visibility
  modifiers : image.modifiers = decl.modifiers
  annotations : image.annotations = decl.annotations

/-- What stands in the copy is the renamed symbol of what stands in the same place. -/
theorem Decl.CopiedAs.symbols {decl image : Decl} {substitution : Substitution}
    {place : DeclId → DeclId} (copied : decl.CopiedAs image substitution place) :
    image.symbols = decl.symbols.map substitution.apply := by
  have mentioned (occurrences : List Occurrence) :
      (occurrences.map (Occurrence.rename substitution.apply place)).filterMap Occurrence.symbol? =
        (occurrences.filterMap Occurrence.symbol?).map substitution.apply := by
    rw [List.filterMap_map, List.map_filterMap]
    congr 1
    funext occurrence
    cases occurrence <;> rfl
  rw [Decl.symbols, Decl.symbols, copied.symbol, copied.form, DeclForm.occurrences_rename, mentioned]
  rfl

/-- The copy is the part of the tree under the roots, each declaration at its `place`. -/
structure DeclTree.CopiedTo (tree : DeclTree) (copy : Copy) (place : DeclId → DeclId) : Prop where
  places : Set.BijOn place {id | tree.Reachable id} {id | id.index < copy.tree.size}
  roots : copy.tree.roots = tree.roots.map place
  decls : ∀ id, tree.Reachable id → ∃ decl image, tree.get? id = some decl ∧
    copy.tree.get? (place id) = some image ∧ decl.CopiedAs image copy.substitution place

theorem DeclTree.CopiedTo.exists_image {tree : DeclTree} {copy : Copy} {place : DeclId → DeclId}
    (copiedTo : tree.CopiedTo copy place) {id : DeclId} {decl : Decl} (reached : tree.Reachable id)
    (found : tree.get? id = some decl) : ∃ image, copy.tree.get? (place id) = some image ∧
      decl.CopiedAs image copy.substitution place := by
  obtain ⟨same, image, foundSame, foundImage, copied⟩ := copiedTo.decls id reached
  obtain rfl := Option.some.inj (found.symm.trans foundSame)
  exact ⟨image, foundImage, copied⟩

/-- What a copy that succeeds has done. -/
structure DeclTree.Copied (tree : DeclTree) (choose : Chooser σ) (before : CopyState σ) (copy : Copy)
    (after : CopyState σ) (owners : List (SymbolId × DeclId)) : Prop where
  declared : tree.declared = .ok owners
  entries : (tree.symbolsInUse.eraseDups.mapM (choose.entry owners)).run
    { before with symbols := before.symbols.takeTree.2 } = .ok copy.substitution.entries after
  renamed : copy.tree = tree.renamed before.symbols.takeTree.1 copy.substitution

namespace DeclTree

variable {tree : DeclTree} {choose : Chooser σ} {before after : CopyState σ} {copy : Copy}
  {owners : List (SymbolId × DeclId)}

theorem exists_copied_of_copyWith (run : (tree.copyWith choose).run before = .ok copy after) :
    ∃ owners, tree.Copied choose before copy after owners := by
  rw [copyWith_eq_copyListed] at run
  cases declared : tree.declared with
  | error error =>
    rw [copyListed, declared] at run
    cases run
  | ok owners =>
    rw [copyListed_run declared] at run
    split at run
    · next entries state ran =>
      injection run with same last
      subst same last
      exact ⟨owners, declared, ran, rfl⟩
    · cases run

namespace Copied

theorem indexed (copied : tree.Copied choose before copy after owners) : tree.Indexed owners :=
  indexed_of_declared copied.declared

theorem keys (copied : tree.Copied choose before copy after owners) :
    copy.substitution.entries.map Prod.fst = tree.symbolsInUse.eraseDups :=
  Chooser.keys_of_entries copied.entries

theorem distinct (copied : tree.Copied choose before copy after owners) :
    (copy.substitution.entries.map Prod.fst).Nodup := by
  rw [copied.keys]
  exact nodup_eraseDups _

/-- Every symbol that stands under the roots is settled. -/
theorem exists_get? (copied : tree.Copied choose before copy after owners) {id : DeclId}
    {decl : Decl} (reached : tree.Reachable id) (found : tree.get? id = some decl) {symbol : SymbolId}
    (stands : symbol ∈ decl.symbols) : ∃ new, copy.substitution.get? symbol = some new := by
  refine exists_lookup_of_mem ?_
  rw [copied.keys, List.mem_eraseDups, mem_symbolsInUse_iff copied.indexed.fits]
  exact ⟨id, reached, decl, found, stands⟩

theorem copiedTo (copied : tree.Copied choose before copy after owners) :
    tree.CopiedTo copy (DeclId.placeIn tree.postorder) := by
  have size : copy.tree.size = tree.postorder.length := by
    rw [copied.renamed, size_renamed copied.indexed]
  refine ⟨?_, ?_, fun id reached => ?_⟩
  · rw [size]
    exact bijOn_placeIn copied.indexed
  · rw [copied.renamed]
    rfl
  · obtain ⟨decl, found⟩ := copied.indexed.known id ((copied.indexed.mem_postorder id).2 reached)
    obtain ⟨container, foundImage⟩ := get?_renamed copied.indexed before.symbols.takeTree.1
      copy.substitution reached found
    rw [← copied.renamed] at foundImage
    exact ⟨decl, _, found, foundImage, fun _ stands => copied.exists_get? reached found stands, rfl,
      rfl, rfl, rfl, rfl, rfl⟩

end Copied

/-- A copy is an isomorphism of what is under the roots onto all of the copied tree. -/
theorem exists_copiedTo_of_copyWith (tree : DeclTree) (choose : Chooser σ)
    (before after : CopyState σ) (copy : Copy)
    (run : (tree.copyWith choose).run before = .ok copy after) :
    ∃ place, tree.CopiedTo copy place := by
  obtain ⟨owners, copied⟩ := exists_copied_of_copyWith run
  exact ⟨_, copied.copiedTo⟩

/-- A class with a generic method, whose body calls a function declared later and hands it a lambda;
that function calls the method back, and mentions a declaration that is not under the roots. The
parameters of the lambda and of the function have a type with annotation 9. -/
def sample : DeclTree where
  id := ⟨0⟩
  roots := [⟨5⟩, ⟨7⟩]
  decls := #[
    { symbol := ⟨0⟩, form := .typeParam ⟨1⟩ [], container := some ⟨4⟩, span := ⟨1, 2⟩ },
    { symbol := ⟨1⟩, form := .required ⟨2⟩ (.ofParam ⟨0⟩), container := some ⟨4⟩, span := ⟨3, 4⟩ },
    { symbol := ⟨2⟩, form := .required ⟨2⟩ ((TypeExpr.ofName ⟨3⟩).annotate ⟨9⟩),
      container := some ⟨3⟩, span := ⟨6, 7⟩ },
    { symbol := ⟨3⟩, form := .function .empty [] none [⟨2⟩] none (some [.ret (some (.read ⟨1⟩))]),
      container := some ⟨4⟩, span := ⟨5, 8⟩ },
    { symbol := ⟨4⟩, container := some ⟨5⟩, span := ⟨1, 9⟩,
      form := .function ⟨4⟩ [⟨0⟩] none [⟨1⟩] (some (.ofParam ⟨0⟩))
        (some [.expr (.call ⟨7⟩ [.ofParam ⟨0⟩] (some (.read ⟨1⟩)) [.lambda ⟨3⟩])]) },
    { symbol := ⟨5⟩, form := .cls ⟨5⟩ [] none [⟨4⟩], span := ⟨0, 10⟩ },
    { symbol := ⟨6⟩, container := some ⟨7⟩, span := ⟨12, 13⟩,
      form := .valueParam ⟨6⟩ ((TypeExpr.ofName ⟨3⟩).annotate ⟨9⟩) (some (.read ⟨8⟩)) },
    { symbol := ⟨7⟩, span := ⟨11, 14⟩,
      form := .function ⟨7⟩ [] none [⟨6⟩] none (some [.ret (some (.call ⟨4⟩ [] none [.read ⟨6⟩]))]) },
    { symbol := ⟨8⟩, form := .signature ⟨8⟩ [] none }]

/-- The symbols of the sample, bound where they are declared. -/
def sampleSymbols : SymbolTable where
  nextTree := 1
  symbols := (List.zipIdx [.typeParam, .valueParam, .valueParam, .function .plain,
    .function (.getter ⟨4⟩), .cls, .valueParam, .function (.fromContainer ⟨7⟩),
    .function .plain] |>.map fun (kind, index) =>
      { kind, origin := .declared, source := some ⟨index, index⟩,
        site := some ⟨⟨0⟩, ⟨index⟩⟩ }).toArray

theorem exists_get?_sampleSymbols {id : DeclId} {decl : Decl} (found : sample.get? id = some decl)
    {symbol : SymbolId} (stands : symbol ∈ decl.symbols) :
    ∃ data, sampleSymbols.get? symbol = some data := by
  have all : ∀ decl ∈ sample.decls.toList, ∀ symbol ∈ decl.symbols,
      (sampleSymbols.get? symbol).isSome = true := by decide +kernel
  exact Option.isSome_iff_exists.1 (all decl (Array.mem_of_getElem? found).val symbol stands)

theorem exists_copiedTo_of_copyWith_sample : ∃ copy after,
    (sample.copyWith (.listed [⟨3⟩, ⟨7⟩])).run ⟨sampleSymbols, (), []⟩ = .ok copy after ∧
      ∃ place, sample.CopiedTo copy place := by
  have done : (sample.copyWith (.listed [⟨3⟩, ⟨7⟩])).succeeds ⟨sampleSymbols, (), []⟩ = true := by
    decide +kernel
  obtain ⟨copy, after, run⟩ := Pass.succeeds_eq_true_iff.1 done
  exact ⟨copy, after, run, exists_copiedTo_of_copyWith _ _ _ _ _ run⟩

end DeclTree

end Relabel
