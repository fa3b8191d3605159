import Relabel.Proofs.Binding
import Relabel.Proofs.Tree.Straight

namespace Relabel.DeclTree

variable {tree : DeclTree} {before after : SymbolTable} {id : DeclId}

/-- A declaration owns a placeholder for anything but a class that its form does not admit, be it bound
or not. -/
structure Misplaced (tree : DeclTree) (table : SymbolTable) (id : DeclId) (decl : Decl)
    (symbol : Symbol) : Prop where
  found : tree.get? id = some decl
  known : table.get? decl.symbol = some symbol
  isPlaceholder : symbol.isPlaceholder = true
  notClass : symbol.kind ≠ .cls
  refused : decl.form.admits symbol.kind = false

/-- Everything under the roots owns a known symbol, which is of the kind and origin that it was of
before, and if this is a placeholder for anything but a class, then it is where it belongs. -/
def WellPlaced (tree : DeclTree) (before after : SymbolTable) : Prop :=
  ∀ id, tree.Reachable id → ∃ decl symbol patched, tree.get? id = some decl ∧
    before.get? decl.symbol = some symbol ∧ after.get? decl.symbol = some patched ∧
    patched.kind = symbol.kind ∧ patched.origin = symbol.origin ∧
    (patched.isPlaceholder = true → patched.kind ≠ .cls → decl.form.admits patched.kind = true)

theorem Misplaced.not_bindable {decl : Decl} {symbol : Symbol}
    (misplaced : tree.Misplaced before id decl symbol) : ¬tree.Bindable before id := by
  rintro ⟨same, other, found, known, admitted⟩
  obtain rfl := Option.some.inj (misplaced.found.symm.trans found)
  obtain rfl := Option.some.inj (misplaced.known.symm.trans known)
  have admits := admitted (Symbol.isStandIn_eq_true_iff.2 ⟨misplaced.isPlaceholder, misplaced.notClass⟩)
  rw [misplaced.refused] at admits
  exact nomatch admits

theorem keeps_of_forM_bindOwner {ids : List DeclId} {stats last : BindingStats}
    (run : (ids.forM tree.bindOwner).run (before, stats) = .ok () (after, last)) :
    after.Keeps before := by
  refine holds_of_forM_bindOwner (·.Keeps before) ?_ run (.refl before)
  intro table claimed symbol site span known kept
  exact kept.trans (.claim known site span)

/-- Binding fails at the same declarations all the way, as it changes no kind and no origin. -/
theorem uniform_bindOwner (tree : DeclTree) (before : SymbolTable) :
    tree.Uniform tree.bindOwner (fun state => ∀ id, tree.Bindable state.1 id ↔ tree.Bindable before id)
      (tree.Bindable before) := by
  refine ⟨?_, ?_, ?_⟩
  · rintro id ⟨decl, -, found, -⟩
    exact ⟨decl, found⟩
  · rintro id ⟨table, stats⟩ same bindable
    obtain ⟨decl, symbol, found, known, admitted⟩ := (same id).2 bindable
    refine ⟨(table.claim decl.symbol ⟨tree.id, id⟩ decl.span, stats.counting symbol),
      bindOwner_run_eq_ok_iff.2 ⟨decl, symbol, found, known, admitted, rfl, rfl⟩, fun other => ?_⟩
    exact (bindable_claim_iff known _ _ other).trans (same other)
  · rintro id ⟨table, stats⟩ same wrong
    rcases tree.bindOwner_run_cases id table stats with
      ⟨error, failed⟩ | ⟨decl, symbol, found, known, admitted, -⟩
    · exact ⟨error, _, failed⟩
    · exact absurd ((same id).1 ⟨decl, symbol, found, known, admitted⟩) wrong

theorem wellPlaced_of_bindPlaceholders {stats : BindingStats}
    (run : tree.bindPlaceholders.run before = .ok stats after) : tree.WellPlaced before after := by
  obtain ⟨fits, binding⟩ := bindPlaceholders_run_eq_ok_iff.1 run
  intro id reached
  have inside := (mem_preorder_iff fits).2 reached
  obtain ⟨decl, symbol, found, known, admitted⟩ :=
    exists_forM_bindOwner_run_iff.1 ⟨after, stats, binding⟩ id inside
  obtain ⟨patched, knownAfter, kind, origin⟩ := keeps_of_forM_bindOwner binding decl.symbol symbol known
  refine ⟨decl, symbol, patched, found, known, knownAfter, kind, origin, fun placeholder noClass => ?_⟩
  rw [Symbol.isPlaceholder, origin] at placeholder
  rw [kind] at noClass ⊢
  exact admitted (Symbol.isStandIn_eq_true_iff.2 ⟨placeholder, noClass⟩)

/-- A misplaced placeholder is the error of the first one that a walk comes to, if it comes so far. -/
theorem bindPlaceholders_run_of_misplaced {met rest : List DeclId} {decl : Decl} {symbol : Symbol}
    (walks : tree.Walks tree.roots met (id :: rest)) (bindable : ∀ other ∈ met, tree.Bindable before other)
    (misplaced : tree.Misplaced before id decl symbol) :
    ∃ after, tree.bindPlaceholders.run before =
      .error (.misplaced decl.symbol id symbol.kind decl.form.sort) after := by
  obtain ⟨middle, stats, visits⟩ :
      ∃ middle stats, (met.forM tree.bindOwner).run (before, {}) = .ok () (middle, stats) :=
    exists_forM_bindOwner_run_iff.2 bindable
  obtain ⟨same, known, kind, origin⟩ :=
    keeps_of_forM_bindOwner visits decl.symbol symbol misplaced.known
  have fails : (tree.bindOwner id).run (middle, stats) =
      .error (.misplaced decl.symbol id symbol.kind decl.form.sort) (middle, stats) := by
    have standIn : same.isStandIn = true := by
      refine Symbol.isStandIn_eq_true_iff.2 ⟨?_, ?_⟩
      · rw [Symbol.isPlaceholder, origin]
        exact misplaced.isPlaceholder
      · rw [kind]
        exact misplaced.notClass
    rw [bindOwner_run misplaced.found known, kind, if_pos ⟨standIn, misplaced.refused⟩]
  have walked := walkAll_run_of_walks (tree.uniform_bindOwner before) (fun _ => Iff.rfl) walks
    misplaced.not_bindable visits fails
  refine ⟨middle, ?_⟩
  simp only [bindPlaceholders, EStateM.run] at walked ⊢
  rw [walked]

/-- Binding leaves no placeholder for anything but a class where it does not belong, and the first one
that a walk comes to is what it fails with, bound or not. -/
theorem placed_of_bindPlaceholders (tree : DeclTree) (before : SymbolTable) :
    (∀ stats after, tree.bindPlaceholders.run before = .ok stats after →
      tree.WellPlaced before after) ∧
    ∀ met id rest decl symbol, tree.Walks tree.roots met (id :: rest) →
      (∀ other ∈ met, tree.Bindable before other) → tree.Misplaced before id decl symbol →
      ∃ after, tree.bindPlaceholders.run before =
        .error (.misplaced decl.symbol id symbol.kind decl.form.sort) after := by
  constructor
  · intro stats after run
    exact wellPlaced_of_bindPlaceholders run
  · intro met id rest decl symbol walks bindable misplaced
    exact bindPlaceholders_run_of_misplaced walks bindable misplaced

/-- A function. -/
def lone : DeclTree where
  id := ⟨0⟩
  roots := [⟨0⟩]
  decls := #[{ symbol := ⟨0⟩, form := .signature .empty [] none }]

/-- A placeholder alone. -/
def placeholderAlone (kind : Symbol.Kind) (site : Option DeclSite) : SymbolTable where
  nextTree := 1
  symbols := #[{ kind, origin := .placeholder, source := none, site }]

theorem placed_of_bindPlaceholders_lone :
    (∃ stats after, lone.bindPlaceholders.run (placeholderAlone (.function .plain) none) =
        .ok stats after ∧ lone.WellPlaced (placeholderAlone (.function .plain) none) after) ∧
    ∃ after, lone.bindPlaceholders.run (placeholderAlone .valueParam (some ⟨⟨0⟩, ⟨0⟩⟩)) =
      .error (.misplaced ⟨0⟩ ⟨0⟩ .valueParam .function) after := by
  constructor
  · have done : lone.bindPlaceholders.succeeds (placeholderAlone (.function .plain) none) = true := by
      decide +kernel
    obtain ⟨stats, after, run⟩ := Pass.succeeds_eq_true_iff.1 done
    exact ⟨stats, after, run, (placed_of_bindPlaceholders lone _).1 stats after run⟩
  · have misplaced : lone.Misplaced (placeholderAlone .valueParam (some ⟨⟨0⟩, ⟨0⟩⟩)) ⟨0⟩
        { symbol := ⟨0⟩, form := .signature .empty [] none }
        ⟨.valueParam, .placeholder, none, some ⟨⟨0⟩, ⟨0⟩⟩⟩ :=
      ⟨rfl, rfl, rfl, by decide, rfl⟩
    exact (placed_of_bindPlaceholders lone _).2 [] ⟨0⟩ [] _ _ (.stop _)
      (fun _ inside => nomatch inside) misplaced

/-- A placeholder for a class that has got to a function stays there unnoticed: binding skips it before
it looks at the form. -/
theorem exists_class_of_bindPlaceholders : ∃ before stats after,
    lone.bindPlaceholders.run before = .ok stats after ∧
      ∃ decl symbol, lone.Reachable ⟨0⟩ ∧ lone.get? ⟨0⟩ = some decl ∧
        before.get? decl.symbol = some symbol ∧ after.get? decl.symbol = some symbol ∧
        symbol.isPlaceholder = true ∧ decl.form.admits symbol.kind = false := by
  refine ⟨placeholderAlone .cls none, ⟨1, 0, 0⟩, placeholderAlone .cls none, rfl, ?_⟩
  exact ⟨_, _, .root List.mem_cons_self, rfl, rfl, rfl, rfl, rfl⟩

end Relabel.DeclTree
