import Relabel.Proofs.Copy.Fresh
import Relabel.Proofs.TableInvariant

namespace Relabel

namespace SymbolTable

/-- The later table has the symbols of the earlier one just as they were, placeholders after them,
and at most one more tree number taken. -/
structure Grown (earlier later : SymbolTable) : Prop where
  old : ∀ id : SymbolId, id.index < earlier.size → later.get? id = earlier.get? id
  added : ∀ id symbol, earlier.size ≤ id.index → later.get? id = some symbol →
    symbol.isPlaceholder = true
  le_nextTree : earlier.nextTree ≤ later.nextTree
  nextTree_le : later.nextTree ≤ earlier.nextTree + 1

namespace Grown

variable {earlier later : SymbolTable}

theorem refl (table : SymbolTable) : table.Grown table := by
  refine ⟨fun _ _ => rfl, fun id symbol above known => ?_, Nat.le_refl _, Nat.le_succ _⟩
  have below := lt_size_of_get? known
  omega

theorem takeTree (table : SymbolTable) : table.Grown table.takeTree.2 := by
  obtain ⟨old, added, -, -⟩ := refl table
  exact ⟨old, added, Nat.le_succ _, Nat.le_refl _⟩

theorem get?_of_get? (grown : earlier.Grown later) {id : SymbolId} {symbol : Symbol}
    (known : earlier.get? id = some symbol) : later.get? id = some symbol := by
  rw [grown.old id (lt_size_of_get? known), known]

theorem push (grown : earlier.Grown later) {symbol : Symbol}
    (placeholder : symbol.isPlaceholder = true) : earlier.Grown (later.push symbol) := by
  refine ⟨fun id below => ?_, fun id other above known => ?_, grown.le_nextTree, grown.nextTree_le⟩
  · have inside : (earlier.get? id).isSome := (get?_isSome_iff earlier id).2 below
    obtain ⟨data, here⟩ := Option.isSome_iff_exists.1 inside
    rw [here, get?_push_of_get? (grown.get?_of_get? here)]
  · rw [get?_push] at known
    split at known
    · obtain rfl := Option.some.inj known
      exact placeholder
    · exact grown.added id other above known

theorem of_replacementFor (grown : earlier.Grown later) {after : SymbolTable} {old new : SymbolId}
    {transformed : Bool} (replacement : later.replacementFor old transformed = .ok (new, after)) :
    earlier.Grown after := by
  rcases replacementFor_eq_ok_iff.1 replacement with
    ⟨-, symbol, -, -, -, rfl⟩ | ⟨-, -, rfl⟩
  · exact grown.push rfl
  · exact grown

/-- Claiming a symbol that is new, or that is not changed by that. -/
theorem claim (grown : earlier.Grown later) {id : SymbolId} {symbol : Symbol}
    (known : later.get? id = some symbol) {site : DeclSite} {span : Span}
    (fixed : id.index < earlier.size → symbol.claimedAt site span = symbol) :
    earlier.Grown (later.claim id site span) := by
  refine ⟨fun other below => ?_, fun other data above here => ?_, grown.le_nextTree,
    grown.nextTree_le⟩
  · rw [get?_claim known]
    split
    · next same =>
      subst same
      rw [fixed below, ← known, grown.old other below]
    · exact grown.old other below
  · rw [get?_claim known] at here
    split at here
    · next same =>
      subst same
      obtain rfl := Option.some.inj here
      have placeholder := grown.added other symbol above known
      rwa [Symbol.isPlaceholder, Symbol.origin_claimedAt]
    · exact grown.added other data above here

end Grown

end SymbolTable

namespace DeclTree

variable {tree : DeclTree} {predicate : TypePredicate}

/-- A copy only adds placeholders, also where it fails. -/
theorem grown_of_copy (tree : DeclTree) (predicate : TypePredicate) (before : RelabelState) :
    before.symbols.Grown ((tree.copy predicate).stateAfter before).symbols :=
  maintained_of_copy (fun _ _ => .refl before.symbols) (.takeTree before.symbols)
    fun _ _ grown => grown.push rfl

/-- An old placeholder that a copy owns has been kept, so it is misplaced. -/
theorem not_admits_of_old {before after : RelabelState} {copy : Copy}
    (run : (tree.copy predicate).run before = .ok copy after) {there : DeclId} {image : Decl}
    {symbol : Symbol} (foundImage : copy.tree.get? there = some image)
    (known : before.symbols.get? image.symbol = some symbol) (standIn : symbol.isStandIn = true) :
    image.form.admits symbol.kind = false := by
  obtain ⟨owners, renewal⟩ := exists_renewedBy run
  obtain ⟨id, decl, reached, rfl, found, copied⟩ := renewal.copiedTo.exists_source foundImage
  obtain ⟨new, entry⟩ := copied.settled decl.symbol List.mem_cons_self
  obtain rfl : image.symbol = new := by rw [copied.symbol, Substitution.apply_eq_of_get? entry]
  have listed : (decl.symbol, image.symbol) ∈ copy.substitution.entries := mem_of_lookup entry
  have stays : image.symbol = decl.symbol := by
    by_contra moved
    have above := (renewal.renewed.added _ _ listed moved).1
    exact Nat.not_lt.2 above (SymbolTable.lt_size_of_get? known)
  rw [stays] at listed
  have still : after.symbols.get? image.symbol = some symbol := renewal.renewed.old _ _ known
  exact renewal.not_admits_of_kept reached found copied listed still standIn

/-- Binding the placeholders of a copy leaves all old symbols alone. -/
theorem maintains_bindPlaceholders_copy {before middle : RelabelState} {copy : Copy}
    (run : (tree.copy predicate).run before = .ok copy middle) :
    Pass.Maintains before.symbols.Grown copy.tree.bindPlaceholders := by
  refine maintains_bindPlaceholders fun table id image symbol grown _ found known admitted => ?_
  refine grown.claim known fun below => Symbol.claimedAt_of_not_isStandIn ?_ _ _
  rw [grown.old image.symbol below] at known
  by_contra standIn
  rw [Bool.not_eq_false] at standIn
  have refused := not_admits_of_old run found known standIn
  rw [admitted standIn] at refused
  exact nomatch refused

/-- Whatever becomes of a relabelling, the old symbols are left alone. -/
theorem grown_of_relabel (tree : DeclTree) (predicate : TypePredicate) (options : RelabelOptions)
    (before : RelabelState) :
    before.symbols.Grown ((tree.relabel predicate options).stateAfter before).symbols :=
  maintained_of_relabel (grown_of_copy tree predicate before)
    fun _ _ run => maintains_bindPlaceholders_copy run

end DeclTree

namespace CompilationUnit

variable {unit : CompilationUnit} {predicate : TypePredicate} {options : RelabelOptions}

theorem symbols_of_relabel : (unit.relabel predicate options).unit.symbols =
    ((unit.tree.relabel predicate options).stateAfter ⟨unit.symbols, []⟩).symbols := by
  rw [relabel, Pass.stateAfter]
  split <;> simp_all

theorem tree_of_relabel_eq_error {error : PassError}
    (failed : (unit.relabel predicate options).result = .error error) :
    (unit.relabel predicate options).unit.tree = unit.tree := by
  unfold relabel at failed ⊢
  cases run : (unit.tree.relabel predicate options).run ⟨unit.symbols, []⟩ with
  | ok out after =>
    rw [run] at failed
    exact nomatch failed
  | error cause after => rfl

/-- Whatever units are relabelled, however malformed they are and whatever fails: the symbols of
each unit are as they were, those that have been added are placeholders, and a unit that could not
be relabelled has its tree still. -/
theorem grown_of_relabelAll (units : List CompilationUnit) (predicate : TypePredicate)
    (options : RelabelOptions) :
    List.Forall₂
      (fun unit report => unit.symbols.Grown report.unit.symbols ∧
        ∀ error, report.result = .error error → report.unit.tree = unit.tree)
      units (relabelAll units predicate options) := by
  rw [relabelAll, List.forall₂_map_right_iff, List.forall₂_same]
  intro unit _
  refine ⟨?_, fun _ failed => tree_of_relabel_eq_error failed⟩
  rw [symbols_of_relabel]
  exact unit.tree.grown_of_relabel predicate options ⟨unit.symbols, []⟩

end CompilationUnit

end Relabel
