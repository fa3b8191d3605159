import Relabel.Proofs.Copy.Images
import Relabel.Proofs.Copy.Success
import Relabel.Proofs.Relabelled

namespace Relabel.DeclTree

variable {tree : DeclTree} {predicate : TypePredicate} {options : RelabelOptions}

/-- Transformed declarations and those that own placeholders admit their symbols. Classes do not
matter here. -/
def AdmitsPlaceholders (tree : DeclTree) (predicate : TypePredicate) (symbols : SymbolTable) :
    Prop :=
  ∀ id decl symbol, tree.Reachable id → tree.get? id = some decl →
    symbols.get? decl.symbol = some symbol →
    ((Judge.mk tree predicate).Finds symbols id true ∨ symbol.isPlaceholder = true) →
    symbol.kind ≠ .cls → decl.form.admits symbol.kind = true

/-- The symbols that a copy keeps are bound. -/
def BindsKept (tree : DeclTree) (predicate : TypePredicate) (symbols : SymbolTable) : Prop :=
  ∀ id decl symbol, tree.Reachable id → tree.get? id = some decl →
    symbols.get? decl.symbol = some symbol →
    (¬(Judge.mk tree predicate).Finds symbols id true ∨ symbol.kind = .cls) → symbol.isBound = true

/-- What a relabelling needs to succeed: a walk stays in the tree and meets no symbol twice,
everything can be judged, and the symbols are such that they can be bound and that the check passes.
-/
structure Relabellable (tree : DeclTree) (predicate : TypePredicate) (options : RelabelOptions)
    (symbols : SymbolTable) : Prop where
  closed : tree.Closed
  distinct : ((tree.owned tree.preorder).map Prod.fst).Nodup
  judged : ∀ id, tree.Reachable id → ∃ verdict, (Judge.mk tree predicate).Finds symbols id verdict
  admits : tree.AdmitsPlaceholders predicate symbols
  bound : options.checkBindings = true → tree.BindsKept predicate symbols

namespace Imaged

variable {before after : SymbolTable} {copy : Copy} {id : DeclId} {decl : Decl}
  {symbol : Symbol} {transformed : Bool} {image : Decl}

theorem bindable_iff
    (imaged : tree.Imaged predicate before after copy id decl symbol transformed image) :
    copy.tree.Bindable after (id.placeIn tree.postorder) ↔
      ((transformed = true ∨ symbol.isPlaceholder = true) → symbol.kind ≠ .cls →
        decl.form.admits symbol.kind = true) := by
  have standIn : (symbol.copied transformed).isStandIn = true ↔
      (transformed = true ∨ symbol.isPlaceholder = true) ∧ symbol.kind ≠ .cls := by
    rw [Symbol.isStandIn_copied, Bool.and_eq_true, Bool.or_eq_true, or_comm,
      Symbol.Kind.replaceable, bne_iff_ne]
  have only : copy.tree.Bindable after (id.placeIn tree.postorder) ↔
      ((symbol.copied transformed).isStandIn = true →
        image.form.admits (symbol.copied transformed).kind = true) := by
    simp [Bindable, imaged.found, imaged.data]
  rw [only, standIn, imaged.admits_eq, Symbol.kind_copied, and_imp]

/-- Where placeholders are admitted, those that a copy binds are new. One that is kept would have
been refused. -/
theorem isStandIn_copied
    (imaged : tree.Imaged predicate before after copy id decl symbol transformed image)
    (admits : (transformed = true ∨ symbol.isPlaceholder = true) → symbol.kind ≠ .cls →
      decl.form.admits symbol.kind = true) :
    (symbol.copied transformed).isStandIn = (transformed && symbol.kind.replaceable) := by
  rw [Symbol.isStandIn_copied]
  cases transformed with
  | true => rw [Bool.or_true]
  | false =>
    rw [Bool.or_false, Bool.false_and]
    by_contra standIn
    rw [Bool.not_eq_false] at standIn
    have refused := Judge.not_admits_of_ruling_false imaged.ruled imaged.source imaged.known standIn
    rw [Bool.and_eq_true, Symbol.Kind.replaceable, bne_iff_ne] at standIn
    rw [admits (.inr standIn.1) standIn.2] at refused
    cases refused

/-- After binding, the symbol of a copied declaration is bound, unless it is kept and was not bound
before. -/
theorem isBound_claimedAt_iff
    (imaged : tree.Imaged predicate before after copy id decl symbol transformed image)
    (admits : (transformed = true ∨ symbol.isPlaceholder = true) → symbol.kind ≠ .cls →
      decl.form.admits symbol.kind = true) (site : DeclSite) (span : Span) :
    ((symbol.copied transformed).claimedAt site span).isBound = true ↔
      ((transformed = false ∨ symbol.kind = .cls) → symbol.isBound = true) := by
  rw [Symbol.isBound_claimedAt, Symbol.isBound_copied, imaged.isStandIn_copied admits]
  by_cases isClass : symbol.kind = .cls
  · simp [Symbol.Kind.replaceable, isClass]
  · have replaceable : symbol.kind.replaceable = true := by
      rw [Symbol.Kind.replaceable, bne_iff_ne]
      exact isClass
    cases transformed <;> simp [replaceable, isClass]

end Imaged

section Copied

variable {before middle : RelabelState} {copy : Copy}
  (informed : ∀ id, tree.Reachable id → (Judge.mk tree predicate).Informed before.symbols id)
  (run : (tree.copy predicate).run before = .ok copy middle)

include informed run

/-- The placeholders of a copy can be bound iff the tree admits them. -/
theorem exists_bindPlaceholders_copy_run_iff :
    (∃ stats last, copy.tree.bindPlaceholders.run middle.symbols = .ok stats last) ↔
      tree.AdmitsPlaceholders predicate before.symbols := by
  rw [exists_bindPlaceholders_run_iff, forall_mem_preorder_copy_iff run]
  constructor
  · intro both id decl symbol reached found known
    obtain ⟨transformed, image, imaged⟩ := exists_imaged informed run reached found known
    have admits := imaged.bindable_iff.1 (both.2 id reached)
    rw [Judge.finds_iff, imaged.ruled, Except.ok.injEq]
    exact admits
  · intro admits
    refine ⟨(laidOut_of_copy run).fits, fun id reached => ?_⟩
    obtain ⟨decl, symbol, transformed, image, imaged⟩ :=
      exists_imaged_of_reachable informed run reached
    have here := admits id decl symbol reached imaged.source imaged.known
    rw [Judge.finds_iff, imaged.ruled, Except.ok.injEq] at here
    exact imaged.bindable_iff.2 here

section Bound

variable {stats : BindingStats} {last : SymbolTable}
  (binding : copy.tree.bindPlaceholders.run middle.symbols = .ok stats last)

include binding

theorem claimed_of_copy : copy.tree.Claimed copy.tree.preorder middle.symbols last := by
  obtain ⟨owners, replaced, copied⟩ := exists_selectivelyCopied (known_of_informed informed) run
  exact (claimed_of_bindPlaceholders (copied.ownsApart (known_of_informed informed) _) binding).2

/-- The owners in a copy have symbols that are known after binding. -/
theorem known_of_claimed : ∀ there ∈ copy.tree.preorder, ∃ image symbol,
    copy.tree.get? there = some image ∧ last.get? image.symbol = some symbol := by
  intro there inside
  obtain ⟨image, data, found, -, known⟩ := (claimed_of_copy informed run binding).owned there inside
  exact ⟨image, _, found, known⟩

theorem get?_of_imaged {id : DeclId} {decl : Decl} {symbol : Symbol} {transformed : Bool}
    {image : Decl} (reached : tree.Reachable id)
    (imaged : tree.Imaged predicate before.symbols middle.symbols copy id decl symbol transformed
      image) :
    last.get? image.symbol = some ((symbol.copied transformed).claimedAt
      ⟨copy.tree.id, id.placeIn tree.postorder⟩ decl.span) := by
  have met : id.placeIn tree.postorder ∈ copy.tree.preorder :=
    (mem_preorder_iff (laidOut_of_copy run).fits).2 ((copiedTo_of_copy run).reachable reached)
  have claimed := claimed_of_copy informed run binding
  rw [claimed.get?_eq met imaged.found imaged.data, imaged.copiedAs.span]

theorem admits_of_imaged {id : DeclId} {decl : Decl} {symbol : Symbol} {transformed : Bool}
    {image : Decl} (reached : tree.Reachable id)
    (imaged : tree.Imaged predicate before.symbols middle.symbols copy id decl symbol transformed
      image) :
    (transformed = true ∨ symbol.isPlaceholder = true) → symbol.kind ≠ .cls →
      decl.form.admits symbol.kind = true := by
  have admits := (exists_bindPlaceholders_copy_run_iff informed run).1 ⟨stats, last, binding⟩
  have here := admits id decl symbol reached imaged.source imaged.known
  rwa [Judge.finds_iff, imaged.ruled, Except.ok.injEq] at here

/-- The check of a copy passes iff the symbols that the copy has kept are bound. -/
theorem checkBound_copy_eq_ok_iff :
    copy.tree.checkBound last = .ok () ↔ tree.BindsKept predicate before.symbols := by
  have fits := (laidOut_of_copy run).fits
  rw [checkBound_eq_ok_iff fits (known_of_claimed informed run binding),
    forall_mem_preorder_copy_iff run]
  -- A declaration owns a bound symbol in the copy iff its own is bound or not kept.
  have here {id : DeclId} {decl : Decl} {symbol : Symbol} {transformed : Bool} {image : Decl}
      (reached : tree.Reachable id)
      (imaged : tree.Imaged predicate before.symbols middle.symbols copy id decl symbol transformed
        image) :
      copy.tree.owns last Symbol.isBound (id.placeIn tree.postorder) = true ↔
        ((¬(Judge.mk tree predicate).Finds before.symbols id true ∨ symbol.kind = .cls) →
          symbol.isBound = true) := by
    rw [Judge.finds_iff, imaged.ruled, Except.ok.injEq,
      owns_of_get? imaged.found (get?_of_imaged informed run binding reached imaged),
      imaged.isBound_claimedAt_iff (admits_of_imaged informed run binding reached imaged),
      Bool.not_eq_true]
  constructor
  · intro all id decl symbol reached found known
    obtain ⟨transformed, image, imaged⟩ := exists_imaged informed run reached found known
    exact (here reached imaged).1 (all id reached)
  · intro bound id reached
    obtain ⟨decl, symbol, transformed, image, imaged⟩ :=
      exists_imaged_of_reachable informed run reached
    exact (here reached imaged).2 (bound id decl symbol reached imaged.source imaged.known)

/-- What the check of a copy finds fault with is a symbol that the copy has kept. -/
theorem exists_neverBound_of_checkBound_copy {error : PassError}
    (failed : copy.tree.checkBound last = .error error) :
    ∃ symbol id kind, error = .neverBound symbol id kind ∧ symbol.index < before.symbols.size := by
  have fits := (laidOut_of_copy run).fits
  obtain ⟨there, inside, image, data, found, here, unbound, same⟩ :=
    exists_neverBound_of_checkBound fits (known_of_claimed informed run binding) failed
  refine ⟨image.symbol, there, data.kind, same, ?_⟩
  obtain ⟨id, reached, rfl⟩ :=
    (copiedTo_of_copy run).exists_reachable ((mem_preorder_iff fits).1 inside)
  obtain ⟨decl, symbol, transformed, image', imaged⟩ :=
    exists_imaged_of_reachable informed run reached
  obtain rfl := Option.some.inj (found.symm.trans imaged.found)
  obtain rfl := Option.some.inj
    (here.symm.trans (get?_of_imaged informed run binding reached imaged))
  have kept : (transformed && symbol.kind.replaceable) = false := by
    rw [Symbol.isBound_claimedAt, Symbol.isStandIn_copied, Bool.or_eq_false_iff] at unbound
    cases transformed with
    | false => rfl
    | true => simpa using unbound.2
  rw [imaged.symbol_of_kept kept]
  exact SymbolTable.lt_size_of_get? imaged.known

end Bound

end Copied

variable {before : RelabelState}

theorem exists_relabel_run_iff_of_informed
    (informed : ∀ id, tree.Reachable id → (Judge.mk tree predicate).Informed before.symbols id) :
    (∃ out after, (tree.relabel predicate options).run before = .ok out after) ↔
      tree.Relabellable predicate options before.symbols := by
  constructor
  · intro done
    obtain ⟨out, after, run⟩ := done
    obtain ⟨middle, copying, binding, -, checked⟩ := relabel_run_eq_ok_iff.1 run
    obtain ⟨declared, judged⟩ := (exists_copy_run_iff informed).1 ⟨_, middle, copying⟩
    obtain ⟨closed, distinct⟩ := exists_declared_iff.1 declared
    refine ⟨closed, distinct, fun id reached => ?_, ?_, fun check => ?_⟩
    · obtain ⟨transformed, ruled⟩ := judged id reached
      exact ⟨transformed, Judge.finds_iff.2 ruled⟩
    · exact (exists_bindPlaceholders_copy_run_iff informed copying).1 ⟨_, _, binding⟩
    · exact (checkBound_copy_eq_ok_iff informed copying binding).1 (checked check)
  · intro fine
    have judged (id : DeclId) (reached : tree.Reachable id) :
        ∃ transformed, (Judge.mk tree predicate).ruling before.symbols id = .ok transformed := by
      obtain ⟨transformed, found⟩ := fine.judged id reached
      exact ⟨transformed, Judge.finds_iff.1 found⟩
    obtain ⟨copy, middle, copying⟩ :=
      exists_copy_run (exists_declared_iff.2 ⟨fine.closed, fine.distinct⟩) judged
    obtain ⟨stats, last, binding⟩ :=
      (exists_bindPlaceholders_copy_run_iff informed copying).2 fine.admits
    have checked (check : options.checkBindings = true) : copy.tree.checkBound last = .ok () :=
      (checkBound_copy_eq_ok_iff informed copying binding).2 (fine.bound check)
    exact ⟨⟨copy.tree, copy.substitution, stats⟩, ⟨last, middle.consulted⟩,
      relabel_run_eq_ok_iff.2 ⟨middle, copying, binding, rfl, checked⟩⟩

/-- Where the symbols of all declarations are known, a relabelling succeeds exactly if the tree and
the table before it are as it needs them. If it fails for the check alone, it names an old symbol.
-/
theorem exists_relabel_run_iff_relabellable (tree : DeclTree) (predicate : TypePredicate)
    (options : RelabelOptions) (before : RelabelState)
    (arena : ∀ id decl, tree.get? id = some decl →
      ∃ symbol, before.symbols.get? decl.symbol = some symbol) :
    ((∃ out after, (tree.relabel predicate options).run before = .ok out after) ↔
      tree.Relabellable predicate options before.symbols) ∧
    ∀ out last error after,
      (tree.relabel predicate { checkBindings := false }).run before = .ok out last →
      (tree.relabel predicate { checkBindings := true }).run before = .error error after →
      ∃ symbol id kind, error = .neverBound symbol id kind ∧
        symbol.index < before.symbols.size := by
  have informed (id : DeclId) (_ : tree.Reachable id) :
      (Judge.mk tree predicate).Informed before.symbols id := informed_of_arena arena id
  refine ⟨exists_relabel_run_iff_of_informed informed, fun out last error after passed failed => ?_⟩
  obtain ⟨middle, copying, binding⟩ := relabel_run_ok passed
  have check : out.tree.checkBound last.symbols = .error error :=
    checkBound_of_relabel_run_eq_error copying binding failed
  exact exists_neverBound_of_checkBound_copy informed copying binding check

theorem exists_relabel_run_iff_relabellable_sample :
    sample.Relabellable (.marked ⟨9⟩) {} sampleSymbols := by
  have done : (sample.relabel (.marked ⟨9⟩) {}).succeeds ⟨sampleSymbols, []⟩ = true := by
    decide +kernel
  have conditions := exists_relabel_run_iff_relabellable sample (.marked ⟨9⟩) {}
    ⟨sampleSymbols, []⟩ fun _ _ found => exists_get?_sampleSymbols found List.mem_cons_self
  exact conditions.1.1 (Pass.succeeds_eq_true_iff.1 done)

end Relabel.DeclTree
