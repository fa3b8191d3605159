import Relabel.Proofs.Maintains
import Relabel.Proofs.Relabelled

namespace Relabel

variable {σ : Type} {inv : SymbolTable → Prop}

namespace Chooser

section Chosen

variable {choose : Chooser σ} {both : SymbolTable × σ → Prop}
  (chosen : ∀ id old, Pass.Maintains both (choose id old))

include chosen

theorem maintains_ask (id : DeclId) (old : SymbolId) :
    Pass.Maintains (fun state => both (state.symbols, state.memory)) (choose.ask id old) := by
  refine Pass.Maintains.bind (fun _ holds => holds) fun _ => ?_
  exact (chosen id old).within (fun _ holds => holds) fun _ _ _ holds => holds

theorem maintains_entry (owners : List (SymbolId × DeclId)) (old : SymbolId) :
    Pass.Maintains (fun state => both (state.symbols, state.memory)) (choose.entry owners old) := by
  have settled : Pass.Maintains (fun state => both (state.symbols, state.memory))
      (choose.settle owners old) := by
    unfold settle
    cases owners.lookup old with
    | none => exact .of_pure old
    | some id => exact maintains_ask chosen id old
  exact settled.bind fun new => .of_pure (old, new)

end Chosen

section Replacing

variable (push : ∀ table symbol, inv table → inv (table.push (Symbol.standIn symbol)))

include push

theorem maintains_replace (old : SymbolId) (transformed : Bool) :
    Pass.Maintains (fun state : SymbolTable × σ => inv state.1) (replace old transformed) := by
  intro before holds
  obtain ⟨table, memory⟩ := before
  rcases replace_run_cases old transformed table memory with
    ⟨error, failed⟩ | ⟨new, after, done, replacement⟩
  · rwa [Pass.stateAfter_of_error failed]
  · rw [Pass.stateAfter_of_ok done]
    rcases SymbolTable.replacementFor_eq_ok_iff.1 replacement with
      ⟨-, symbol, -, -, -, rfl⟩ | ⟨-, -, rfl⟩
    · exact push table symbol holds
    · exact holds

theorem maintains_selective (judge : Judge) (id : DeclId) (old : SymbolId) :
    Pass.Maintains (fun state => inv state.1) (selective judge id old) := by
  refine Pass.Maintains.of_get.bind fun state => ?_
  obtain ⟨symbols, memory⟩ := state
  have judged : Pass.Maintains (fun _ => True) (judge.verdict symbols id) := fun _ _ => trivial
  refine Pass.Maintains.bind ?_ fun transformed => maintains_replace push old transformed
  exact judged.within (fun _ _ => trivial) fun _ _ holds _ => holds

end Replacing

end Chooser

namespace DeclTree

/-- A copy takes a number for its tree, and does nothing else to the table than its chooser does. The
invariant may be about what the chooser remembers, too. -/
theorem maintained_of_copyWith {both : SymbolTable × σ → Prop} {tree : DeclTree} {choose : Chooser σ}
    {before : CopyState σ}
    (refused : ∀ error, tree.declared = .error error → both (before.symbols, before.memory))
    (taken : both (before.symbols.takeTree.2, before.memory))
    (chosen : ∀ id old, Pass.Maintains both (choose id old)) :
    both (((tree.copyWith choose).stateAfter before).symbols,
      ((tree.copyWith choose).stateAfter before).memory) := by
  rw [copyWith_eq_copyListed]
  cases declared : tree.declared with
  | error error =>
    rw [copyListed, declared]
    exact refused error declared
  | ok owners =>
    have settled : Pass.Maintains (fun state : CopyState σ => both (state.symbols, state.memory))
        (tree.symbolsInUse.eraseDups.mapM (choose.entry owners)) :=
      .mapM fun old _ => Chooser.maintains_entry chosen owners old
    have copied : Pass.Maintains (fun state : CopyState σ => both (state.symbols, state.memory)) (do
        let entries ← tree.symbolsInUse.eraseDups.mapM (choose.entry owners)
        pure (Copy.mk (tree.renamed before.symbols.takeTree.1 ⟨entries⟩) ⟨entries⟩)) :=
      settled.bind fun entries => .of_pure _
    rw [copyListed, declared]
    exact copied { before with symbols := before.symbols.takeTree.2 } taken

theorem maintained_of_copy {tree : DeclTree} {predicate : TypePredicate} {before : RelabelState}
    (refused : ∀ error, tree.declared = .error error → inv before.symbols)
    (taken : inv before.symbols.takeTree.2)
    (push : ∀ table symbol, inv table → inv (table.push (Symbol.standIn symbol))) :
    inv ((tree.copy predicate).stateAfter before).symbols := by
  rw [copy, Pass.stateAfter_within]
  have chosen := Chooser.maintains_selective push ⟨tree, predicate⟩
  exact @maintained_of_copyWith _ (fun state => inv state.1) _ _ _ refused taken chosen

theorem stateAfter_bindPlaceholders (tree : DeclTree) (table : SymbolTable) :
    tree.bindPlaceholders.stateAfter table =
      ((tree.walkAll tree.bindOwner).stateAfter (table, {})).1 := by
  simp only [Pass.stateAfter, bindPlaceholders, EStateM.run]
  cases tree.walkAll tree.bindOwner (table, {}) <;> rfl

section Binding

variable {tree : DeclTree}
  (claim : ∀ table id decl symbol, inv table → tree.Reachable id → tree.get? id = some decl →
    table.get? decl.symbol = some symbol →
    (symbol.isStandIn = true → decl.form.admits symbol.kind = true) →
    inv (table.claim decl.symbol ⟨tree.id, id⟩ decl.span))

include claim

theorem maintains_bindOwner {id : DeclId} (reached : tree.Reachable id) :
    Pass.Maintains (fun state => inv state.1) (tree.bindOwner id) := by
  intro state holds
  obtain ⟨table, stats⟩ := state
  rcases tree.bindOwner_run_cases id table stats with
    ⟨error, failed⟩ | ⟨decl, symbol, found, known, admitted, done⟩
  · rwa [Pass.stateAfter_of_error failed]
  · rw [Pass.stateAfter_of_ok done]
    exact claim table id decl symbol holds reached found known admitted

/-- Binding placeholders does nothing to the table but let declarations claim their symbols. -/
theorem maintains_bindPlaceholders : Pass.Maintains inv tree.bindPlaceholders := by
  have walk : Pass.Maintains (fun state => inv state.1) (tree.walkAll tree.bindOwner) :=
    .walkAll fun _ reached => maintains_bindOwner claim reached
  intro table holds
  rw [stateAfter_bindPlaceholders]
  exact walk (table, {}) holds

end Binding

section Relabelling

variable {tree : DeclTree} {predicate : TypePredicate} {options : RelabelOptions}
  {before middle : RelabelState}

theorem stateAfter_relabel_of_error {error : PassError}
    (failed : (tree.copy predicate).run before = .error error middle) :
    (tree.relabel predicate options).stateAfter before = middle := by
  rw [relabel, Pass.stateAfter_bind_of_error failed]

/-- After the copy, a relabelling binds the placeholders of the copy and does nothing else. -/
theorem stateAfter_relabel_of_copy {copy : Copy}
    (run : (tree.copy predicate).run before = .ok copy middle) :
    ((tree.relabel predicate options).stateAfter before).symbols =
      copy.tree.bindPlaceholders.stateAfter middle.symbols := by
  rw [relabel, Pass.stateAfter_bind_of_ok run]
  let binding : Pass RelabelState BindingStats :=
    Pass.within (·.symbols) (fun symbols state => { state with symbols }) copy.tree.bindPlaceholders
  have bound : (binding.stateAfter middle).symbols =
      copy.tree.bindPlaceholders.stateAfter middle.symbols := by
    rw [Pass.stateAfter_within]
  change ((binding >>= _).stateAfter middle).symbols = _
  rw [← bound]
  cases done : binding.run middle with
  | error error after => rw [Pass.stateAfter_bind_of_error done, Pass.stateAfter_of_error done]
  | ok stats after =>
    rw [Pass.stateAfter_bind_of_ok done, Pass.stateAfter_of_ok done]
    split
    · suffices checks : Pass.Maintains (fun state : RelabelState => state.symbols = after.symbols) _
        from checks after rfl
      refine Pass.Maintains.of_get.bind fun state => ?_
      exact (Pass.Maintains.ofExcept _ _).bind fun _ => .of_pure _
    · rfl

theorem maintained_of_relabel
    (copied : inv ((tree.copy predicate).stateAfter before).symbols)
    (bound : ∀ copy middle, (tree.copy predicate).run before = .ok copy middle →
      Pass.Maintains inv copy.tree.bindPlaceholders) :
    inv ((tree.relabel predicate options).stateAfter before).symbols := by
  cases run : (tree.copy predicate).run before with
  | error error middle =>
    rw [Pass.stateAfter_of_error run] at copied
    rwa [stateAfter_relabel_of_error run]
  | ok copy middle =>
    rw [Pass.stateAfter_of_ok run] at copied
    rw [stateAfter_relabel_of_copy run]
    exact bound copy middle run middle.symbols copied

end Relabelling

end DeclTree

end Relabel
