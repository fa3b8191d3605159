import Relabel.Proofs.Copy.Termination
import Relabel.Proofs.Judge.Blame

namespace Relabel

namespace Chooser

variable {judge : Judge} {start : SymbolTable} {accused : DeclId → Prop}

theorem reports_replace (old : SymbolId) (transformed : Bool) :
    judge.Reports start accused (fun state : SymbolTable × Judge.Memory => state.2.consulted)
      (fun state => start.Grown state.1) (replace old transformed) := by
  intro before grown
  have push (table : SymbolTable) (symbol : Symbol) (grown : start.Grown table) :
      start.Grown (table.push symbol.standIn) := grown.push rfl
  refine ⟨maintains_replace push old transformed before grown, [], ?_⟩
  obtain ⟨table, memory⟩ := before
  rcases replace_run_cases old transformed table memory with
    ⟨error, failed⟩ | ⟨new, after, done, -⟩
  · rw [Pass.stateAfter_of_error failed, Pass.resultFrom_of_error failed]
    exact ⟨rfl, .stopped .nil (by simp [PassError.OfPredicate])⟩
  · rw [Pass.stateAfter_of_ok done, Pass.resultFrom_of_ok done]
    exact ⟨rfl, .done .nil⟩

/-- The types are asked about in the verdict. The table is that of the moment, in which all symbols
that are no placeholders come from the start. -/
theorem reports_selective (id : DeclId) (old : SymbolId) :
    judge.Reports start (judge.Concerns id)
      (fun state : SymbolTable × Judge.Memory => state.2.consulted)
      (fun state => start.Grown state.1) (selective judge id old) := by
  refine Pass.Logs.get_bind fun state grown => ?_
  obtain ⟨symbols, memory⟩ := state
  refine Judge.Reports.bind ?_ fun transformed => reports_replace old transformed
  exact (Judge.reports_verdict grown id).within (fun _ _ => trivial) (fun _ _ holds _ => holds)
    (fun _ => rfl) fun _ _ => rfl

theorem reports_ask (id : DeclId) (old : SymbolId) :
    judge.Reports start (judge.Concerns id) (·.memory.consulted)
      (fun state => start.Grown state.symbols) ((selective judge).ask id old) := by
  refine Pass.Logs.modify_bind [] (fun _ grown => grown) (fun _ => rfl) ?_
  exact (reports_selective id old).within (fun _ grown => grown) (fun _ _ _ grown => grown)
    (fun _ => rfl) fun _ _ => rfl

theorem reports_entry {owners : List (SymbolId × DeclId)} (old : SymbolId)
    (allowed : ∀ id owner, owners.lookup old = some id → judge.Concerns id owner → accused owner) :
    judge.Reports start accused (·.memory.consulted) (fun state => start.Grown state.symbols)
      ((selective judge).entry owners old) := by
  have settled : judge.Reports start accused (·.memory.consulted)
      (fun state => start.Grown state.symbols) ((selective judge).settle owners old) := by
    unfold settle
    cases owner : owners.lookup old with
    | none => exact .of_pure old
    | some id => exact (reports_ask id old).mono fun other => allowed id other owner
  exact settled.bind fun new => .of_pure (old, new)

end Chooser

namespace DeclTree

/-- The declarations that a copy may blame: those under the roots, and the containers of parameters
there, which need not be under the roots themselves. -/
def Accountable (tree : DeclTree) (owner : DeclId) : Prop :=
  tree.Reachable owner ∨ ∃ id decl, tree.Reachable id ∧ tree.get? id = some decl ∧
    decl.form.isParameter = true ∧ decl.container = some owner

theorem accountable_of_concerns {tree : DeclTree} {predicate : TypePredicate} {id owner : DeclId}
    (reached : tree.Reachable id) (concerns : (Judge.mk tree predicate).Concerns id owner) :
    tree.Accountable owner := by
  rcases concerns with same | ⟨decl, found, parameter, inside⟩
  · left
    rwa [same]
  · exact .inr ⟨id, decl, reached, found, parameter, inside⟩

theorem exists_report_of_copyWith (tree : DeclTree) (predicate : TypePredicate)
    (before : CopyState Judge.Memory) : ∃ asked,
      ((tree.copyWith (.selective ⟨tree, predicate⟩)).stateAfter before).memory.consulted =
        asked.reverse ++ before.memory.consulted ∧
      (Judge.mk tree predicate).Report before.symbols tree.Accountable asked
        ((tree.copyWith (.selective ⟨tree, predicate⟩)).resultFrom before) := by
  rw [copyWith_eq_copyListed]
  cases declared : tree.declared with
  | error error =>
    rw [copyListed, declared]
    have foreign : ¬error.OfPredicate := by
      cases declared_eq_error_iff.1 declared <;> simp [PassError.OfPredicate]
    exact ⟨[], rfl, .stopped .nil foreign⟩
  | ok owners =>
    have indexed := indexed_of_declared declared
    let judge : Judge := ⟨tree, predicate⟩
    have settled : judge.Reports before.symbols tree.Accountable (·.memory.consulted)
        (fun state => before.symbols.Grown state.symbols)
        (tree.symbolsInUse.eraseDups.mapM (Chooser.entry (.selective judge) owners)) := by
      refine .mapM fun old _ => Chooser.reports_entry old fun id owner owned => ?_
      exact accountable_of_concerns ((indexed.lookup old id).1 owned).1
    have copied : judge.Reports before.symbols tree.Accountable (·.memory.consulted)
        (fun state => before.symbols.Grown state.symbols) (do
        let entries ← tree.symbolsInUse.eraseDups.mapM (Chooser.entry (.selective judge) owners)
        pure (Copy.mk (tree.renamed before.symbols.takeTree.1 ⟨entries⟩) ⟨entries⟩)) :=
      settled.bind fun entries => .of_pure _
    rw [copyListed, declared]
    -- The number for the copy is taken once, so that it is not part of what every step maintains.
    exact (copied { before with symbols := before.symbols.takeTree.2 } (.takeTree _)).2

variable {tree : DeclTree} {predicate : TypePredicate} {before : RelabelState}

theorem exists_report_of_copy (tree : DeclTree) (predicate : TypePredicate)
    (before : RelabelState) : ∃ asked,
      ((tree.copy predicate).stateAfter before).consulted = asked.reverse ++ before.consulted ∧
      (Judge.mk tree predicate).Report before.symbols tree.Accountable asked
        ((tree.copy predicate).resultFrom before) := by
  rw [copy, Pass.stateAfter_within, Pass.resultFrom_within]
  exact exists_report_of_copyWith tree predicate _

/-- A copy asks the predicate about the types in `asked`, oldest first. It fails where a type cannot be
classified, and blames the declaration that was being judged by this type. -/
structure Blames (tree : DeclTree) (predicate : TypePredicate) (before : RelabelState)
    (asked : List TypeExpr) : Prop where
  consulted : ((tree.copy predicate).stateAfter before).consulted = asked.reverse ++ before.consulted
  justified : ∀ owner failure after,
    (tree.copy predicate).run before = .error (.predicate owner failure) after →
    tree.Accountable owner ∧ ∃ earlier own ty, asked = earlier ++ own ++ [ty] ∧
      (Judge.mk tree predicate).FailsAt before.symbols owner own ty failure
  carried : ∀ ty ∈ asked, ∀ failure, predicate ty = .error failure →
    ∃ owner after, (tree.copy predicate).run before = .error (.predicate owner failure) after

/-- Failures of the predicate are always reported, and with the right declaration. -/
theorem exists_blames_of_copy (tree : DeclTree) (predicate : TypePredicate)
    (before : RelabelState) : ∃ asked, tree.Blames predicate before asked := by
  obtain ⟨asked, consulted, report⟩ := exists_report_of_copy tree predicate before
  refine ⟨asked, consulted, ?_, ?_⟩
  · intro owner failure after run
    rw [Pass.resultFrom_of_error run] at report
    exact report.of_predicate
  · intro ty inside failure fails
    obtain ⟨owner, failed⟩ := report.exists_predicate inside fails
    exact ⟨owner, Pass.exists_run_of_resultFrom_error failed⟩

/-- A parameter whose function is not under the roots. -/
def detached : DeclTree where
  id := ⟨0⟩
  roots := [⟨0⟩]
  decls := #[
    { symbol := ⟨0⟩, form := .required ⟨3⟩ (.ofName ⟨2⟩), container := some ⟨1⟩ },
    { symbol := ⟨1⟩, form := .signature ⟨4⟩ [⟨0⟩] (some ((TypeExpr.ofName ⟨2⟩).annotate ⟨9⟩)) }]

def detachedSymbols : SymbolTable where
  nextTree := 1
  symbols := #[
    { kind := .valueParam, origin := .declared, source := none },
    { kind := .function .plain, origin := .declared, source := none }]

/-- The annotation in question cannot be resolved. -/
def unresolved : TypePredicate := fun ty =>
  if ty.carries ⟨9⟩ then .error ⟨"annotation not resolved"⟩ else .ok false

/-- The function is blamed for its result type, although only its parameter is copied. -/
theorem exists_blames_of_copy_detached : ¬detached.Reachable ⟨1⟩ ∧ ∃ asked after,
    detached.Blames unresolved ⟨detachedSymbols, []⟩ asked ∧
    (detached.copy unresolved).run ⟨detachedSymbols, []⟩ =
      .error (.predicate ⟨1⟩ ⟨"annotation not resolved"⟩) after ∧
    detached.Accountable ⟨1⟩ ∧ ∃ earlier own ty, asked = earlier ++ own ++ [ty] ∧
      (Judge.mk detached unresolved).FailsAt detachedSymbols ⟨1⟩ own ty
        ⟨"annotation not resolved"⟩ := by
  have apart : ¬detached.Reachable ⟨1⟩ := by
    have walks : detached.Walks detached.roots [⟨0⟩] [] := .visit (.stop [])
    rw [← walks.mem_iff_reachable]
    decide
  have failed : (detached.copy unresolved).resultFrom ⟨detachedSymbols, []⟩ =
      .error (.predicate ⟨1⟩ ⟨"annotation not resolved"⟩) := by decide +kernel
  obtain ⟨asked, blames⟩ := exists_blames_of_copy detached unresolved ⟨detachedSymbols, []⟩
  obtain ⟨after, run⟩ := Pass.exists_run_of_resultFrom_error failed
  exact ⟨apart, asked, after, blames, run, blames.justified _ _ _ run⟩

end DeclTree

end Relabel
