import Relabel.Proofs.Judge.Totality
import Relabel.Proofs.Relabelled.Success

namespace Relabel

namespace DeclTree

variable {tree : DeclTree}

/-- What is under the roots forms a tree, each declaration in the one that lists it, and the
declarations own symbols of their own, which are bound and of kinds that they admit. -/
structure WellFormed (tree : DeclTree) (symbols : SymbolTable) : Prop where
  closed : tree.Closed
  nodup : tree.preorder.Nodup
  nested : tree.Nested
  apart : ∀ first second decl other, tree.Reachable first → tree.Reachable second →
    tree.get? first = some decl → tree.get? second = some other → decl.symbol = other.symbol →
    first = second
  owned : ∀ id decl, tree.Reachable id → tree.get? id = some decl →
    ∃ symbol, symbols.get? decl.symbol = some symbol ∧ symbol.isBound = true ∧
      decl.form.admits symbol.kind = true

namespace WellFormed

variable {predicate : TypePredicate} {options : RelabelOptions} {before after : RelabelState}
  {out : Relabelled}

theorem known {symbols : SymbolTable} (wellFormed : tree.WellFormed symbols) (id : DeclId)
    (decl : Decl) (reached : tree.Reachable id) (found : tree.get? id = some decl) :
    ∃ symbol, symbols.get? decl.symbol = some symbol := by
  obtain ⟨symbol, known, -⟩ := wellFormed.owned id decl reached found
  exact ⟨symbol, known⟩

theorem informed {symbols : SymbolTable} (wellFormed : tree.WellFormed symbols) (id : DeclId)
    (reached : tree.Reachable id) : (Judge.mk tree predicate).Informed symbols id :=
  informed_of_nested wellFormed.nested wellFormed.known id reached

/-- Nothing can go wrong on a well-formed tree, unless the predicate fails. -/
theorem relabellable {symbols : SymbolTable} (wellFormed : tree.WellFormed symbols)
    (total : predicate.Total) (options : RelabelOptions) :
    tree.Relabellable predicate options symbols := by
  have apart : tree.OwnsApart tree.preorder := fun first inside second insideSecond decl other =>
    wellFormed.apart first second decl other (reachable_of_mem_preorder inside)
      (reachable_of_mem_preorder insideSecond)
  refine ⟨wellFormed.closed, nodup_owned wellFormed.nodup apart, fun id reached => ?_,
    fun id decl symbol reached found known _ _ => ?_,
    fun _ id decl symbol reached found known _ => ?_⟩
  · have ruled : ∃ verdict, (Judge.mk tree predicate).ruling symbols id = .ok verdict :=
      Judge.exists_ruling total wellFormed.closed wellFormed.nested wellFormed.known reached
    obtain ⟨verdict, ruled⟩ := ruled
    exact ⟨verdict, Judge.finds_iff.2 ruled⟩
  · obtain ⟨same, here, -, admits⟩ := wellFormed.owned id decl reached found
    obtain rfl := Option.some.inj (known.symm.trans here)
    exact admits
  · obtain ⟨same, here, bound, -⟩ := wellFormed.owned id decl reached found
    obtain rfl := Option.some.inj (known.symm.trans here)
    exact bound

/-- A relabelled tree is well-formed again. -/
theorem of_relabel (wellFormed : tree.WellFormed before.symbols)
    (run : (tree.relabel predicate options).run before = .ok out after) :
    out.tree.WellFormed after.symbols := by
  obtain ⟨middle, copying, binding⟩ := relabel_run_ok run
  have informed : ∀ id, tree.Reachable id → (Judge.mk tree predicate).Informed before.symbols id :=
    wellFormed.informed
  have copiedTo := copiedTo_of_copy copying
  have laidOut := laidOut_of_copy copying
  obtain ⟨owners, replaced, copied⟩ := exists_selectivelyCopied wellFormed.known copying
  refine ⟨copiedTo.closed, laidOut.nodup, laidOut.nested,
    fun first second decl other _ _ foundFirst foundSecond => ?_,
    fun there image reached found => ?_⟩
  · exact copied.ownsApart wellFormed.known [first, second] first List.mem_cons_self second
      (by simp) decl other foundFirst foundSecond
  · obtain ⟨id, source, rfl⟩ := copiedTo.exists_reachable reached
    obtain ⟨decl, symbol, transformed, image', imaged⟩ :=
      exists_imaged_of_reachable informed copying source
    obtain rfl := Option.some.inj (found.symm.trans imaged.found)
    obtain ⟨same, here, bound, admits⟩ := wellFormed.owned id decl source imaged.source
    obtain rfl := Option.some.inj (imaged.known.symm.trans here)
    refine ⟨_, get?_of_imaged informed copying binding source imaged, ?_, ?_⟩
    · rw [Symbol.isBound_claimedAt, Symbol.isBound_copied, Symbol.isStandIn_copied, bound]
      cases transformed <;> cases symbol.kind.replaceable <;> simp
    · rw [Symbol.kind_claimedAt, Symbol.kind_copied, imaged.admits_eq, admits]

end WellFormed

theorem wellFormed_sample : sample.WellFormed sampleSymbols := by
  refine ⟨fun id reached => ?_, by decide +kernel, nested_sample,
    fun first second decl other _ _ found foundOther same => ?_, fun id decl _ found => ?_⟩
  · have top : ∀ root ∈ sample.roots, (sample.get? root).isSome := by decide +kernel
    have inside : ∀ decl ∈ sample.decls.toList, ∀ child ∈ decl.form.children,
        (sample.get? child).isSome := by decide +kernel
    cases reached with
    | root listed => exact Option.isSome_iff_exists.1 (top id listed)
    | child _ found listed =>
      have parent := (Array.mem_of_getElem? found).val
      exact Option.isSome_iff_exists.1 (inside _ parent id listed)
  · have all : ∀ index ∈ List.range 9,
        (sample.get? ⟨index⟩).map (·.symbol.index) = some index := by decide +kernel
    have one := all first.index (lt_of_get?_sample found)
    have two := all second.index (lt_of_get?_sample foundOther)
    rw [found, Option.map_some, Option.some.injEq] at one
    rw [foundOther, Option.map_some, Option.some.injEq] at two
    have index : first.index = second.index := by rw [← one, ← two, same]
    cases first
    cases second
    exact congrArg DeclId.mk index
  · have all : ∀ decl ∈ sample.decls.toList, (sampleSymbols.get? decl.symbol).any fun symbol =>
        symbol.isBound && decl.form.admits symbol.kind := by decide +kernel
    have here := all decl (Array.mem_of_getElem? found).val
    rw [Option.any_eq_true] at here
    obtain ⟨symbol, known, fine⟩ := here
    rw [Bool.and_eq_true] at fine
    exact ⟨symbol, known, fine⟩

end DeclTree

namespace CompilationUnit

open DeclTree (sample sampleSymbols wellFormed_sample)

/-- Relabels a unit over and over, each time with a predicate and options of its own. -/
def relabelEach (unit : CompilationUnit) : List (TypePredicate × RelabelOptions) → List UnitReport
  | [] => []
  | (predicate, options) :: calls =>
    let report := unit.relabel predicate options
    report :: report.unit.relabelEach calls

def WellFormed (unit : CompilationUnit) : Prop := unit.tree.WellFormed unit.symbols

theorem wellFormed_of_relabel {unit : CompilationUnit} (wellFormed : unit.WellFormed)
    {predicate : TypePredicate} (total : predicate.Total) (options : RelabelOptions) :
    (∃ done, (unit.relabel predicate options).result = .ok done) ∧
      (unit.relabel predicate options).unit.WellFormed := by
  have ran : ∃ out after, (unit.tree.relabel predicate options).run ⟨unit.symbols, []⟩ =
      .ok out after :=
    (DeclTree.exists_relabel_run_iff_of_informed wellFormed.informed).2
      (wellFormed.relabellable total options)
  obtain ⟨out, after, run⟩ := ran
  have start : unit.tree.WellFormed (RelabelState.mk unit.symbols []).symbols := wellFormed
  have again : out.tree.WellFormed after.symbols := start.of_relabel run
  rw [relabel, run]
  exact ⟨⟨_, rfl⟩, again⟩

/-- A well-formed unit can be relabelled as often as one likes with predicates that never fail, and
is well-formed each time. -/
theorem wellFormed_of_relabelEach (unit : CompilationUnit)
    (calls : List (TypePredicate × RelabelOptions)) (wellFormed : unit.WellFormed)
    (total : ∀ call ∈ calls, call.1.Total) :
    ∀ report ∈ unit.relabelEach calls,
      (∃ done, report.result = .ok done) ∧ report.unit.WellFormed := by
  induction calls generalizing unit with
  | nil => exact fun _ inside => nomatch inside
  | cons call calls ih =>
    obtain ⟨predicate, options⟩ := call
    have here := wellFormed_of_relabel wellFormed (total _ List.mem_cons_self) options
    refine List.forall_mem_cons.2 ⟨here, ?_⟩
    exact ih _ here.2 fun other inside => total other (List.mem_cons_of_mem _ inside)

theorem wellFormed_of_relabelEach_sample : WellFormed ⟨sampleSymbols, sample⟩ ∧
    ∀ report ∈ relabelEach ⟨sampleSymbols, sample⟩
        [(.marked ⟨9⟩, {}), (fun _ => .ok true, { checkBindings := false }), (.marked ⟨3⟩, {})],
      (∃ done, report.result = .ok done) ∧ report.unit.WellFormed := by
  refine ⟨wellFormed_sample,
    wellFormed_of_relabelEach _ _ wellFormed_sample fun call inside ty => ?_⟩
  simp only [List.mem_cons, List.not_mem_nil, or_false] at inside
  rcases inside with rfl | rfl | rfl
  · exact ⟨_, rfl⟩
  · exact ⟨_, rfl⟩
  · exact ⟨_, rfl⟩

end CompilationUnit

end Relabel
