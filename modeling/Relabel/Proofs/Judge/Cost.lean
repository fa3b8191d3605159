import Relabel.Proofs.Judge.Blame
import Relabel.Proofs.Spends

namespace Relabel

namespace DeclTree

/-- How many types are looked at in a value parameter; none in anything else. -/
def paramParts (tree : DeclTree) (param : DeclId) : Nat :=
  (((tree.get? param).bind fun decl => decl.form.paramType?).toList.flatMap TypeExpr.parts).length

/-- How many types are looked at to judge a declaration, those around it apart. Its placeholder
decides without any. -/
def judgingCost (tree : DeclTree) (start : SymbolTable) (id : DeclId) : Nat :=
  match tree.get? id with
  | none => 0
  | some decl =>
    if (start.get? decl.symbol).any (·.isPlaceholder) then 0
    else ((tree.signatureTypes decl.form).flatMap TypeExpr.parts).length

variable {tree : DeclTree}

theorem length_paramTypes_parts (params : List DeclId) :
    ((tree.paramTypes params).flatMap TypeExpr.parts).length = (params.map tree.paramParts).sum := by
  rw [paramTypes, List.filterMap_eq_flatMap_toList, List.flatMap_assoc, List.length_flatMap]
  rfl

theorem paramParts_of_get? {param : DeclId} {decl : Decl} (found : tree.get? param = some decl) :
    tree.paramParts param = (decl.form.paramType?.toList.flatMap TypeExpr.parts).length := by
  rw [paramParts, found]
  rfl

end DeclTree

namespace Judge

/-- The declarations that there is a verdict on, newest first. -/
def Memory.decided (memory : Memory) : List DeclId := memory.verdicts.map Prod.fst

/-- What judging the decided declarations may have cost. -/
def Memory.due (memory : Memory) (tree : DeclTree) (start : SymbolTable) : Nat :=
  (memory.decided.map (tree.judgingCost start)).sum

/-- Only what is under the roots has been decided, each once, and what is pending has not been. -/
structure Underway (judge : Judge) (pending : List DeclId) (memory : Memory) : Prop where
  distinct : (pending ++ memory.decided).Nodup
  reachable : ∀ id ∈ memory.decided, judge.tree.Reachable id

/-- The pass asks the predicate at most `price` times more than what it decides may cost. -/
abbrev Pays (judge : Judge) (start : SymbolTable) (pending : List DeclId) (price : Nat)
    (pass : Pass Memory Bool) : Prop :=
  Pass.Spends (judge.Underway pending) (·.consulted.length) (·.due judge.tree start) price pass

variable {judge : Judge} {start symbols : SymbolTable} {pending : List DeclId}

theorem pays_annotated (owner : DeclId) (ty : TypeExpr) :
    judge.Pays start pending ty.parts.length (judge.annotated owner ty) := by
  intro before value after underway run
  rw [annotated, Pass.run_bind_eq_ok_iff] at run
  obtain ⟨_, middle, noted, answered⟩ := run
  obtain ⟨-, rfl⟩ := Pass.run_ofExcept_eq_ok_iff.1 answered
  obtain ⟨-, rfl⟩ := EStateM.Result.ok.inj noted
  have bound := judge.predicate.length_consulted_le ty
  refine ⟨⟨underway.distinct, underway.reachable⟩, ?_⟩
  change ((judge.predicate.consulted ty).reverse ++ before.consulted).length +
    before.due judge.tree start ≤
      before.consulted.length + before.due judge.tree start + (ty.args.length + 1)
  rw [List.length_append, List.length_reverse]
  omega

theorem pays_paramAnnotated (owner : DeclId) (params : List DeclId) :
    judge.Pays start pending ((judge.tree.paramTypes params).flatMap TypeExpr.parts).length
      (judge.paramAnnotated owner params) := by
  rw [DeclTree.length_paramTypes_parts]
  refine Pass.Spends.anyM fun param _ => Pass.Spends.ofExcept_bind fun decl found => ?_
  rw [DeclTree.paramParts_of_get? (DeclTree.get_eq_ok_iff.1 found)]
  cases decl.form with
  | valueParam name ty default =>
    simpa [DeclForm.paramType?] using pays_annotated owner ty
  | _ => exact .of_pure false

theorem pays_resultAnnotated (owner : DeclId) (result : Option TypeExpr) :
    judge.Pays start pending (result.toList.flatMap TypeExpr.parts).length
      (judge.resultAnnotated owner result) := by
  cases result with
  | none => exact .of_pure false
  | some ty => simpa [resultAnnotated] using pays_annotated owner ty

theorem pays_containerTransformed {outer : DeclId → Pass Memory Bool} (decl : Decl)
    (above : ∀ container around, decl.container = some container →
      judge.tree.get? container = some around → around.form.isSignature = true →
      judge.Pays start pending 0 (outer container)) :
    judge.Pays start pending 0 (judge.containerTransformed outer decl) := by
  unfold containerTransformed
  cases inside : decl.container with
  | none => exact .of_pure false
  | some container =>
    refine Pass.Spends.ofExcept_bind fun around found => ?_
    split
    · next signature =>
      exact above container around inside (DeclTree.get_eq_ok_iff.1 found) signature
    · exact .of_pure false

/-- A declaration is judged at its cost, where judging what is around it is paid for. -/
theorem pays_assess (grown : start.Grown symbols) {outer : DeclId → Pass Memory Bool} {id : DeclId}
    (above : ∀ decl container around, judge.tree.get? id = some decl →
      decl.form.isParameter = true → decl.container = some container →
      judge.tree.get? container = some around → around.form.isSignature = true →
      judge.Pays start pending 0 (outer container)) :
    judge.Pays start pending (judge.tree.judgingCost start id) (judge.assess symbols outer id) := by
  refine Pass.Spends.ofExcept_bind fun decl found => ?_
  refine Pass.Spends.ofExcept_bind fun symbol known => ?_
  rw [DeclTree.get_eq_ok_iff] at found
  rw [SymbolTable.get_eq_ok_iff] at known
  have around (parameter : decl.form.isParameter = true) :
      judge.Pays start pending 0 (judge.containerTransformed outer decl) :=
    pays_containerTransformed decl fun container around =>
      above decl container around found parameter
  cases placeholder : symbol.isPlaceholder with
  | true =>
    cases decl.form with
    | _ => exact .of_pure _
  | false =>
    have price : judge.tree.judgingCost start id =
        ((judge.tree.signatureTypes decl.form).flatMap TypeExpr.parts).length := by
      have knownFirst := grown.get?_of_plain known placeholder
      simp [DeclTree.judgingCost, found, knownFirst, placeholder]
    rw [price]
    cases form : decl.form with
    | cls name typeParams thisReceiver members => exact .of_pure false
    | ctor typeParams params body => exact pays_paramAnnotated id params
    | function name typeParams receiver params result body =>
      rw [DeclTree.signatureTypes, List.flatMap_append, List.length_append]
      exact (pays_paramAnnotated id params).orM (pays_resultAnnotated id result)
    | valueParam name ty default =>
      rw [DeclTree.signatureTypes, List.flatMap_singleton]
      exact (pays_annotated id ty).orM (around (by rw [form, DeclForm.isParameter]))
    | receiverParam ty =>
      rw [DeclTree.signatureTypes, List.flatMap_singleton]
      exact (pays_annotated id ty).orM (around (by rw [form, DeclForm.isParameter]))
    | typeParam name bounds => exact around (by rw [form, DeclForm.isParameter])

/-- A verdict that is remembered costs nothing, and one that is not is paid for by being remembered
from now on. -/
theorem pays_memoized {id : DeclId} {assess : Pass Memory Bool} (reached : judge.tree.Reachable id)
    (new : id ∉ pending)
    (assessed : judge.Pays start (id :: pending) (judge.tree.judgingCost start id) assess) :
    judge.Pays start pending 0 (memoized id assess) := by
  intro before value after underway run
  rw [memoized, EStateM.run_bind, EStateM.run_get] at run
  cases remembered : before.verdicts.lookup id with
  | some verdict =>
    simp only [remembered] at run
    obtain ⟨rfl, rfl⟩ := EStateM.Result.ok.inj run
    exact ⟨underway, Nat.le_refl _⟩
  | none =>
    simp only [remembered] at run
    obtain ⟨verdict, middle, assessing, noting⟩ := Pass.run_bind_eq_ok_iff.1 run
    obtain ⟨rfl, rfl⟩ := EStateM.Result.ok.inj noting
    have undecided : id ∉ before.decided := lookup_eq_none_iff_forall_ne.1 remembered
    have pendingToo : judge.Underway (id :: pending) before := by
      refine ⟨?_, underway.reachable⟩
      rw [List.cons_append, List.nodup_cons, List.mem_append]
      exact ⟨not_or.2 ⟨new, undecided⟩, underway.distinct⟩
    obtain ⟨still, bounded⟩ := assessed before verdict middle pendingToo assessing
    refine ⟨⟨List.perm_middle.nodup_iff.2 still.distinct, ?_⟩, ?_⟩
    · exact List.forall_mem_cons.2 ⟨reached, still.reachable⟩
    · change middle.consulted.length + before.due judge.tree start ≤
        before.consulted.length + (judge.tree.judgingCost start id + middle.due judge.tree start)
      have owed : middle.consulted.length + before.due judge.tree start ≤
        before.consulted.length + middle.due judge.tree start +
          judge.tree.judgingCost start id := bounded
      omega

theorem pays_signatureVerdict (grown : start.Grown symbols) {id : DeclId}
    (reached : judge.tree.Reachable id) (new : id ∉ pending) :
    judge.Pays start pending 0 (judge.signatureVerdict symbols id) :=
  pays_memoized reached new (pays_assess grown fun _ _ _ _ _ _ _ _ => .of_pure false)

/-- Where containers are what lists a declaration, a verdict decides only what is under the roots, and
what that costs is paid for. -/
theorem pays_verdict (nested : judge.tree.Nested) (grown : start.Grown symbols) {id : DeclId}
    (reached : judge.tree.Reachable id) :
    judge.Pays start [] 0 (judge.verdict symbols id) := by
  refine pays_memoized reached List.not_mem_nil (pays_assess grown ?_)
  intro decl container around found parameter inside foundAround signature
  refine pays_signatureVerdict grown (nested.reachable_container reached found inside) ?_
  rw [List.mem_singleton]
  rintro rfl
  obtain rfl := Option.some.inj (found.symm.trans foundAround)
  cases form : decl.form <;>
    simp [form, DeclForm.isParameter, DeclForm.isSignature] at parameter signature

end Judge

end Relabel
