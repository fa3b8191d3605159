import Relabel.Proofs.Copy.Allocation

namespace Relabel.DeclTree

/-- `decl` is a declaration under the roots, and `image` stands at its place in the copy. -/
def Corresponds (tree : DeclTree) (copy : Copy) (place : DeclId → DeclId) (decl image : Decl) :
    Prop :=
  ∃ id, tree.Reachable id ∧ tree.get? id = some decl ∧ copy.tree.get? (place id) = some image

/-- The renaming of a copy mixes up nothing: it is injective, the added symbols are new to what is
copied, and none that is replaced is left over. So symbols in the copy are the same exactly where they
are in the tree, and what mentions a declaration under the roots mentions its copy then. -/
structure Hygienic (tree : DeclTree) (before after : SymbolTable) (copy : Copy)
    (place : DeclId → DeclId) : Prop where
  injective : ∀ old other new, copy.substitution.get? old = some new →
    copy.substitution.get? other = some new → old = other
  added : ∀ old new, copy.substitution.get? old = some new → new ≠ old →
    before.size ≤ new.index ∧ new.index < after.size
  fresh : ∀ new : SymbolId, before.size ≤ new.index → new.index < after.size →
    ∀ id decl, tree.Reachable id → tree.get? id = some decl → new ∉ decl.symbols
  erased : ∀ old, copy.substitution.isReplaced old = true →
    ∀ id image, copy.tree.get? id = some image → old ∉ image.symbols
  same_iff : ∀ decl image other imageOther, tree.Corresponds copy place decl image →
    tree.Corresponds copy place other imageOther → image.symbols.length = decl.symbols.length ∧
      ∀ i j : Nat, i < decl.symbols.length → j < other.symbols.length →
        (image.symbols[i]? = imageOther.symbols[j]? ↔ decl.symbols[i]? = other.symbols[j]?)
  names_iff : ∀ decl image declared imageDeclared, tree.Corresponds copy place decl image →
    tree.Corresponds copy place declared imageDeclared → ∀ i : Nat,
      image.symbols[i]? = some imageDeclared.symbol ↔ decl.symbols[i]? = some declared.symbol

variable {tree : DeclTree} {before after : SymbolTable} {copy : Copy}
  {owners : List (SymbolId × DeclId)} {replaced : List SymbolId}

theorem Corresponds.symbols {place : DeclId → DeclId} {decl image : Decl}
    (copiedTo : tree.CopiedTo copy place) (corresponds : tree.Corresponds copy place decl image) :
    image.symbols = decl.symbols.map copy.substitution.apply ∧
      ∀ symbol ∈ decl.symbols, ∃ new, copy.substitution.get? symbol = some new := by
  obtain ⟨id, reached, found, foundImage⟩ := corresponds
  obtain ⟨image', foundImage', copied⟩ := copiedTo.exists_image reached found
  obtain rfl := Option.some.inj (foundImage.symm.trans foundImage')
  exact ⟨copied.symbols, copied.settled⟩

/-- Every declaration of a copy stands at the place of one under the roots. -/
theorem CopiedTo.exists_corresponds {place : DeclId → DeclId} (copiedTo : tree.CopiedTo copy place)
    {id : DeclId} {image : Decl} (found : copy.tree.get? id = some image) :
    ∃ decl, tree.Corresponds copy place decl image := by
  obtain ⟨source, reached, rfl⟩ := copiedTo.places.surjOn (lt_size_of_get? found)
  obtain ⟨decl, image', foundDecl, foundImage, -⟩ := copiedTo.decls source reached
  obtain rfl := Option.some.inj (found.symm.trans foundImage)
  exact ⟨decl, source, reached, foundDecl, found⟩

namespace SelectivelyCopied

theorem lt_size_after (copied : tree.SelectivelyCopied before after copy owners replaced)
    {old : SymbolId} (inside : old ∈ replaced) :
    (old.allotted before.size replaced).index < after.size := by
  have size := copied.size_after
  have position := List.idxOf_lt_length_of_mem inside
  rw [SymbolId.allotted_of_mem inside]
  simp only
  omega

section Known

variable (copied : tree.SelectivelyCopied before after copy owners replaced)
  (known : ∀ id decl, tree.Reachable id → tree.get? id = some decl →
    ∀ symbol ∈ decl.symbols, ∃ data, before.get? symbol = some data)

include copied known

theorem lt_size_of_get?_substitution {old new : SymbolId}
    (entry : copy.substitution.get? old = some new) : old.index < before.size := by
  obtain ⟨inUse, -⟩ := copied.get?_eq_some_iff.1 entry
  obtain ⟨id, reached, decl, found, stands⟩ := (mem_symbolsInUse_iff copied.indexed.fits).1 inUse
  obtain ⟨data, here⟩ := known id decl reached found old stands
  exact SymbolTable.lt_size_of_get? here

theorem injective {old other new : SymbolId} (first : copy.substitution.get? old = some new)
    (second : copy.substitution.get? other = some new) : old = other := by
  have below := copied.lt_size_of_get?_substitution known first
  have belowOther := copied.lt_size_of_get?_substitution known second
  obtain ⟨-, rfl⟩ := copied.get?_eq_some_iff.1 first
  obtain ⟨-, same⟩ := copied.get?_eq_some_iff.1 second
  exact SymbolId.injOn_allotted below belowOther same

/-- Two settled symbols are renamed to the same symbol only if they are the same. -/
theorem apply_eq_iff {old other : SymbolId} (settled : ∃ new, copy.substitution.get? old = some new)
    (settledOther : ∃ new, copy.substitution.get? other = some new) :
    copy.substitution.apply old = copy.substitution.apply other ↔ old = other := by
  obtain ⟨new, first⟩ := settled
  obtain ⟨newOther, second⟩ := settledOther
  rw [Substitution.apply_eq_of_get? first, Substitution.apply_eq_of_get? second]
  constructor
  · intro same
    rw [← same] at second
    exact copied.injective known first second
  · intro same
    rw [same] at first
    exact Option.some.inj (first.symm.trans second)

theorem not_mem_of_isReplaced {old : SymbolId} (isReplaced : copy.substitution.isReplaced old = true)
    {id : DeclId} {image : Decl} (found : copy.tree.get? id = some image) : old ∉ image.symbols := by
  intro stands
  obtain ⟨decl, corresponds⟩ := copied.copiedTo.exists_corresponds found
  obtain ⟨renamed, settled⟩ := corresponds.symbols copied.copiedTo
  rw [renamed, List.mem_map] at stands
  obtain ⟨source, stands, same⟩ := stands
  obtain ⟨new, entry⟩ := settled source stands
  rw [Substitution.apply_eq_of_get? entry] at same
  have inside := copied.isReplaced_eq_true_iff.1 isReplaced
  have below := copied.lt_size_of_mem_replaced inside
  have belowSource := copied.lt_size_of_get?_substitution known entry
  obtain ⟨-, rfl⟩ := copied.get?_eq_some_iff.1 entry
  -- What is renamed to a symbol of the old table is that symbol, and stays.
  have stays : source ∉ replaced := by
    intro moved
    have above := SymbolId.le_allotted before.size moved
    rw [same] at above
    omega
  rw [SymbolId.allotted_of_not_mem stays] at same
  rw [same] at stays
  exact stays inside

theorem same_iff {decl image other imageOther : Decl}
    (first : tree.Corresponds copy (DeclId.placeIn tree.postorder) decl image)
    (second : tree.Corresponds copy (DeclId.placeIn tree.postorder) other imageOther) {i j : Nat}
    (inside : i < decl.symbols.length) (insideOther : j < other.symbols.length) :
    image.symbols[i]? = imageOther.symbols[j]? ↔ decl.symbols[i]? = other.symbols[j]? := by
  obtain ⟨renamed, settled⟩ := first.symbols copied.copiedTo
  obtain ⟨renamedOther, settledOther⟩ := second.symbols copied.copiedTo
  rw [renamed, renamedOther, List.getElem?_map, List.getElem?_map, List.getElem?_eq_getElem inside,
    List.getElem?_eq_getElem insideOther, Option.map_some, Option.map_some, Option.some.injEq,
    Option.some.injEq]
  exact copied.apply_eq_iff known (settled _ (List.getElem_mem inside))
    (settledOther _ (List.getElem_mem insideOther))

theorem hygienic : tree.Hygienic before after copy (DeclId.placeIn tree.postorder) := by
  refine ⟨fun old other new => copied.injective known, fun old new entry differs => ?_,
    fun new above below id decl reached found stands => ?_,
    fun old isReplaced id image => copied.not_mem_of_isReplaced known isReplaced,
    fun decl image other imageOther first second => ⟨?_, fun i j => copied.same_iff known first second⟩,
    fun decl image declared imageDeclared first second i => ?_⟩
  · have inside := copied.isReplaced_eq_true_iff.1
      (Substitution.isReplaced_eq_true_iff.2 ⟨new, entry, differs⟩)
    obtain ⟨-, rfl⟩ := copied.get?_eq_some_iff.1 entry
    exact ⟨SymbolId.le_allotted before.size inside, copied.lt_size_after inside⟩
  · obtain ⟨data, here⟩ := known id decl reached found new stands
    have inside := SymbolTable.lt_size_of_get? here
    omega
  · rw [(first.symbols copied.copiedTo).1, List.length_map]
  · obtain ⟨renamed, settled⟩ := first.symbols copied.copiedTo
    by_cases inside : i < decl.symbols.length
    · exact copied.same_iff known first second inside (Nat.zero_lt_succ _)
    · have outside : image.symbols.length ≤ i := by
        rw [renamed, List.length_map]
        omega
      rw [List.getElem?_eq_none outside, List.getElem?_eq_none (by omega)]
      simp

end Known

end SelectivelyCopied

/-- Where every symbol that stands under the roots is known, a copy is hygienic. -/
theorem hygienic_of_copy (tree : DeclTree) (predicate : TypePredicate)
    (before after : RelabelState) (copy : Copy)
    (known : ∀ id decl, tree.Reachable id → tree.get? id = some decl →
      ∀ symbol ∈ decl.symbols, ∃ data, before.symbols.get? symbol = some data)
    (run : (tree.copy predicate).run before = .ok copy after) :
    ∃ place, tree.CopiedTo copy place ∧
      tree.Hygienic before.symbols after.symbols copy place := by
  obtain ⟨owners, replaced, copied⟩ := exists_selectivelyCopied
    (fun id decl reached found => known id decl reached found _ List.mem_cons_self) run
  exact ⟨_, copied.copiedTo, copied.hygienic known⟩

theorem hygienic_of_copy_sample : ∃ copy after,
    (sample.copy (.marked ⟨9⟩)).run ⟨sampleSymbols, []⟩ = .ok copy after ∧
      ∃ place, sample.CopiedTo copy place ∧
        sample.Hygienic sampleSymbols after.symbols copy place := by
  have done : (sample.copy (.marked ⟨9⟩)).succeeds ⟨sampleSymbols, []⟩ = true := by decide +kernel
  obtain ⟨copy, after, run⟩ := Pass.succeeds_eq_true_iff.1 done
  exact ⟨copy, after, run, hygienic_of_copy sample _ _ after copy
    (fun _ _ _ found _ stands => exists_get?_sampleSymbols found stands) run⟩

end Relabel.DeclTree
