import Relabel.Proofs.Binding
import Relabel.Proofs.Copy.Layout
import Relabel.Relabelled

namespace Relabel

theorem Symbol.claimedAt_standIn {symbol : Symbol} (replaceable : symbol.kind ≠ .cls)
    (site : DeclSite) (span : Span) : symbol.standIn.claimedAt site span =
      { kind := symbol.kind, origin := .placeholder, site := some site,
        source := some (if symbol.kind = .function .plain then symbol.source.getD span else span) } := by
  have free : symbol.standIn.isPlaceholder && symbol.standIn.kind.replaceable &&
      !symbol.standIn.isBound := by
    simp [standIn, isPlaceholder, isBound, Kind.replaceable, replaceable]
  rw [claimedAt, if_pos free]
  by_cases plain : symbol.kind = .function .plain
  · simp [boundTo, standIn, plain]
  · simp [boundTo, standIn, plain]

namespace DeclTree

variable {tree : DeclTree} {copy : Copy}

theorem Claimed.isSome_get? {ids : List DeclId} {before after : SymbolTable}
    (claimed : tree.Claimed ids before after) (other : SymbolId) :
    (after.get? other).isSome = (before.get? other).isSome := by
  by_cases owned : ∃ id ∈ ids, ∃ decl, tree.get? id = some decl ∧ decl.symbol = other
  · obtain ⟨id, inside, decl, found, rfl⟩ := owned
    obtain ⟨decl', symbol, found', known, changed⟩ := claimed.owned id inside
    obtain rfl := Option.some.inj (found.symm.trans found')
    rw [known, changed]
    rfl
  · rw [claimed.others other]
    intro id inside decl found same
    exact owned ⟨id, inside, decl, found, same⟩

namespace SelectivelyCopied

variable {before after last : SymbolTable} {owners : List (SymbolId × DeclId)}
  {replaced : List SymbolId}

theorem exists_image (copied : tree.SelectivelyCopied before after copy owners replaced)
    {id : DeclId} {decl : Decl} (reached : tree.Reachable id) (found : tree.get? id = some decl) :
    ∃ image, copy.tree.get? (id.placeIn tree.postorder) = some image ∧
      image.symbol = decl.symbol.allotted before.size replaced ∧ image.span = decl.span := by
  obtain ⟨image, foundImage, same⟩ := copied.copiedTo.exists_image reached found
  have inUse := copied.mem_symbolsInUse reached found List.mem_cons_self
  refine ⟨image, foundImage, ?_, same.span⟩
  rw [same.symbol, Substitution.apply_eq_of_get? (copied.get?_eq_some_iff.2 ⟨inUse, rfl⟩)]

section Known

variable (copied : tree.SelectivelyCopied before after copy owners replaced)
  (known : ∀ id decl, tree.Reachable id → tree.get? id = some decl →
    ∃ symbol, before.get? decl.symbol = some symbol)

include copied known

/-- The new symbol of a declaration is owned by its copy alone. -/
theorem owns_iff {id owner : DeclId} {decl : Decl} (reached : tree.Reachable id)
    (found : tree.get? id = some decl) :
    (∃ image, copy.tree.get? owner = some image ∧
      image.symbol = decl.symbol.allotted before.size replaced) ↔
        owner = id.placeIn tree.postorder := by
  constructor
  · intro owns
    obtain ⟨image, foundImage, same⟩ := owns
    obtain ⟨source, reachedSource, rfl⟩ :=
      copied.copiedTo.places.surjOn (lt_size_of_get? foundImage)
    obtain ⟨other, -, foundOther, -⟩ := copied.copiedTo.decls source reachedSource
    obtain ⟨image', foundImage', symbol, -⟩ := copied.exists_image reachedSource foundOther
    obtain rfl := Option.some.inj (foundImage.symm.trans foundImage')
    obtain ⟨data, here⟩ := known id decl reached found
    obtain ⟨dataOther, hereOther⟩ := known source other reachedSource foundOther
    have sameSymbol : other.symbol = decl.symbol :=
      SymbolId.injOn_allotted (SymbolTable.lt_size_of_get? hereOther)
        (SymbolTable.lt_size_of_get? here) (symbol.symm.trans same)
    have first := (copied.indexed.lookup _ _).2 ⟨reached, decl, found, rfl⟩
    have second := (copied.indexed.lookup _ _).2 ⟨reachedSource, other, foundOther, sameSymbol⟩
    rw [Option.some.inj (second.symm.trans first)]
  · intro same
    obtain ⟨image, foundImage, symbol, -⟩ := copied.exists_image reached found
    rw [same]
    exact ⟨image, foundImage, symbol⟩

theorem ownsApart (ids : List DeclId) : copy.tree.OwnsApart ids := by
  intro first _ second _ decl other foundFirst foundSecond same
  obtain ⟨source, reached, rfl⟩ := copied.copiedTo.places.surjOn (lt_size_of_get? foundSecond)
  obtain ⟨owner, -, found, -⟩ := copied.copiedTo.decls source reached
  obtain ⟨image, foundImage, symbol, -⟩ := copied.exists_image reached found
  obtain rfl := Option.some.inj (foundSecond.symm.trans foundImage)
  exact (copied.owns_iff known reached found).1 ⟨decl, foundFirst, same.trans symbol⟩

end Known

/-- The placeholder of a replaced declaration is bound to the copy. -/
theorem get?_of_claimed (copied : tree.SelectivelyCopied before after copy owners replaced)
    (claimed : copy.tree.Claimed copy.tree.preorder after last)
    (fits : ∀ root ∈ copy.tree.roots, copy.tree.Fits copy.tree.maxDepth root) {id : DeclId}
    {decl : Decl} {symbol : Symbol} (reached : tree.Reachable id) (found : tree.get? id = some decl)
    (inside : decl.symbol ∈ replaced) (here : before.get? decl.symbol = some symbol)
    (replaceable : symbol.kind ≠ .cls) :
    last.get? (decl.symbol.allotted before.size replaced) = some
      { kind := symbol.kind, origin := .placeholder,
        site := some ⟨copy.tree.id, id.placeIn tree.postorder⟩,
        source := some (if symbol.kind = .function .plain then symbol.source.getD decl.span
          else decl.span) } := by
  obtain ⟨image, foundImage, symbolImage, span⟩ := copied.exists_image reached found
  have met : id.placeIn tree.postorder ∈ copy.tree.preorder :=
    (mem_preorder_iff fits).2 (copied.copiedTo.reachable reached)
  obtain ⟨image', data, foundImage', added, bound⟩ := claimed.owned _ met
  obtain rfl := Option.some.inj (foundImage.symm.trans foundImage')
  have standIn := copied.get?_allotted here
  rw [if_pos inside, ← symbolImage, added] at standIn
  obtain rfl := Option.some.inj standIn
  rw [← symbolImage, bound, Symbol.claimedAt_standIn replaceable, span]

/-- Every added symbol has taken the place of one. -/
theorem exists_entry_of_new (copied : tree.SelectivelyCopied before after copy owners replaced)
    {new : SymbolId} (above : before.size ≤ new.index) (below : new.index < after.size) :
    ∃ old, (old, new) ∈ copy.substitution.entries ∧ new ≠ old := by
  have size := copied.size_after
  have inside : new.index - before.size < replaced.length := by omega
  have entry := copied.get?_of_getElem? (List.getElem?_eq_getElem inside)
  have moved := copied.lt_size_of_mem_replaced (List.getElem_mem inside)
  rw [Nat.add_sub_cancel' above] at entry
  refine ⟨_, mem_of_lookup entry, fun same => ?_⟩
  rw [← same] at moved
  omega

end SelectivelyCopied

variable {predicate : TypePredicate} {options : RelabelOptions} {before after : RelabelState}
  {out : Relabelled}

/-- A relabelling copies, then binds, then checks. The check changes nothing. -/
theorem relabel_run_eq_ok_iff : (tree.relabel predicate options).run before = .ok out after ↔
    ∃ middle, (tree.copy predicate).run before = .ok ⟨out.tree, out.substitution⟩ middle ∧
      out.tree.bindPlaceholders.run middle.symbols = .ok out.stats after.symbols ∧
      after.consulted = middle.consulted ∧
      (options.checkBindings = true → out.tree.checkBound after.symbols = .ok ()) := by
  simp only [relabel, Pass.run_bind_eq_ok_iff, Pass.run_within_eq_ok_iff]
  constructor
  · intro run
    obtain ⟨copy, middle, copied, stats, bound, ⟨symbols, binding, rfl⟩, rest⟩ := run
    split at rest
    · next checked =>
      simp only [Pass.run_bind_eq_ok_iff, EStateM.run_get, Pass.ofResult,
        Pass.run_ofExcept_eq_ok_iff] at rest
      obtain ⟨_, _, same, _, _, ⟨done, rfl⟩, last⟩ := rest
      cases same
      cases last
      exact ⟨middle, copied, binding, rfl, fun _ => done⟩
    · next unchecked =>
      cases rest
      exact ⟨middle, copied, binding, rfl, fun checked => absurd checked unchecked⟩
  · intro done
    obtain ⟨middle, copied, binding, consulted, bound⟩ := done
    refine ⟨_, middle, copied, out.stats, after, ⟨_, binding, ?_⟩, ?_⟩
    · rw [← consulted]
    · split
      · next checked =>
        simp only [Pass.run_bind_eq_ok_iff, EStateM.run_get, Pass.ofResult,
          Pass.run_ofExcept_eq_ok_iff]
        exact ⟨after, after, rfl, (), after, ⟨bound checked, rfl⟩, rfl⟩
      · rfl

theorem relabel_run_ok (run : (tree.relabel predicate options).run before = .ok out after) :
    ∃ middle, (tree.copy predicate).run before = .ok ⟨out.tree, out.substitution⟩ middle ∧
      out.tree.bindPlaceholders.run middle.symbols = .ok out.stats after.symbols := by
  obtain ⟨middle, copied, binding, -⟩ := relabel_run_eq_ok_iff.1 run
  exact ⟨middle, copied, binding⟩

/-- A relabelling that fails after it has bound the copy fails for the check. -/
theorem checkBound_of_relabel_run_eq_error {middle : RelabelState} {stats : BindingStats}
    {last : SymbolTable} {error : PassError}
    (copying : (tree.copy predicate).run before = .ok copy middle)
    (binding : copy.tree.bindPlaceholders.run middle.symbols = .ok stats last)
    (failed : (tree.relabel predicate options).run before = .error error after) :
    copy.tree.checkBound last = .error error := by
  rw [relabel, EStateM.run_bind, copying] at failed
  simp only [EStateM.run_bind, Pass.run_within, binding] at failed
  split at failed
  · rw [Pass.run_bind_eq_error_iff] at failed
    rcases failed with failed | ⟨state, _, same, failed⟩
    · exact nomatch failed
    · cases same
      rw [Pass.run_bind_eq_error_iff, Pass.ofResult, Pass.run_ofExcept_eq_error_iff] at failed
      rcases failed with ⟨⟨cause, same, rfl⟩, -⟩ | ⟨_, _, -, done⟩
      · exact same
      · exact nomatch done
  · exact nomatch failed

/-- Every symbol that a relabelling has put in the place of an old one stands for the copy of the
declaration that owns the old one: the copy alone owns it, it is bound there, and what is left of the
old symbol is its kind and, for a plain function, its source. No other symbol is added. -/
structure PlaceholdersBound (tree : DeclTree) (before after : SymbolTable) (out : Relabelled)
    (place : DeclId → DeclId) : Prop where
  copiedTo : tree.CopiedTo ⟨out.tree, out.substitution⟩ place
  bound : ∀ old new, (old, new) ∈ out.substitution.entries → new ≠ old →
    ∃ id decl symbol, tree.Reachable id ∧ tree.get? id = some decl ∧ decl.symbol = old ∧
      before.get? old = some symbol ∧
      (∀ owner, (∃ image, out.tree.get? owner = some image ∧ image.symbol = new) ↔
        owner = place id) ∧
      after.get? new = some
        { kind := symbol.kind, origin := .placeholder, site := some ⟨out.tree.id, place id⟩,
          source := some (if symbol.kind = .function .plain then symbol.source.getD decl.span
            else decl.span) }
  added : ∀ new : SymbolId, before.size ≤ new.index → new.index < after.size →
    ∃ old, (old, new) ∈ out.substitution.entries ∧ new ≠ old

/-- Where the symbols declared under the roots are known, a relabelling binds all its placeholders. -/
theorem placeholdersBound_of_relabel (tree : DeclTree) (predicate : TypePredicate)
    (options : RelabelOptions) (before after : RelabelState) (out : Relabelled)
    (known : ∀ id decl, tree.Reachable id → tree.get? id = some decl →
      ∃ symbol, before.symbols.get? decl.symbol = some symbol)
    (run : (tree.relabel predicate options).run before = .ok out after) :
    ∃ place, tree.PlaceholdersBound before.symbols after.symbols out place := by
  obtain ⟨middle, copying, binding⟩ := relabel_run_ok run
  obtain ⟨owners, replaced, copied⟩ := exists_selectivelyCopied known copying
  obtain ⟨fits, claimed⟩ := claimed_of_bindPlaceholders (copied.ownsApart known _) binding
  refine ⟨_, copied.copiedTo, fun old new entry differs => ?_, fun new above below => ?_⟩
  · have moved := copied.isReplaced_eq_true_iff.1 (Substitution.isReplaced_eq_true_iff.2
      ⟨new, copied.get?_eq_some_iff.2 (copied.mem_entries_iff.1 entry), differs⟩)
    obtain ⟨-, rfl⟩ := copied.mem_entries_iff.1 entry
    obtain ⟨id, symbol, owner, here, replaceable⟩ := copied.selected.owned old moved
    obtain ⟨reached, decl, found, rfl⟩ := (copied.indexed.lookup old id).1 owner
    exact ⟨id, decl, symbol, reached, found, rfl, here,
      fun owner => copied.owns_iff known reached found,
      copied.get?_of_claimed claimed fits reached found moved here replaceable⟩
  · have below' : new.index < middle.symbols.size := by
      rwa [← SymbolTable.get?_isSome_iff, claimed.isSome_get?, SymbolTable.get?_isSome_iff] at below
    exact copied.exists_entry_of_new above below'

theorem placeholdersBound_of_relabel_sample : ∃ out after,
    (sample.relabel (.marked ⟨9⟩) {}).run ⟨sampleSymbols, []⟩ = .ok out after ∧
      ∃ place, sample.PlaceholdersBound sampleSymbols after.symbols out place := by
  have done : (sample.relabel (.marked ⟨9⟩) {}).succeeds ⟨sampleSymbols, []⟩ = true := by
    decide +kernel
  obtain ⟨out, after, run⟩ := Pass.succeeds_eq_true_iff.1 done
  exact ⟨out, after, run, placeholdersBound_of_relabel sample _ _ _ after out
    (fun _ _ _ found => exists_get?_sampleSymbols found List.mem_cons_self) run⟩

end DeclTree

end Relabel
