import Mathlib.Algebra.Order.BigOperators.Group.List
import Mathlib.Algebra.Order.Group.Nat
import Relabel.Proofs.Binding.ClosedForm
import Relabel.Proofs.Copy.Blame
import Relabel.Proofs.Copy.Consulted
import Relabel.Proofs.Judge.Cost

namespace Relabel

/-- A list without repeats adds up to no more than one that has all its members. -/
theorem sum_map_le_of_subset {α : Type} {price : α → Nat} {part all : List α}
    (distinct : part.Nodup) (inside : part ⊆ all) :
    (part.map price).sum ≤ (all.map price).sum := by
  obtain ⟨among, same, sublist⟩ := List.subperm_of_subset distinct inside
  rw [← (same.map price).sum_eq]
  exact (sublist.map price).sum_le_sum fun _ _ => Nat.zero_le _

/-- How often the predicate may be asked about the types of a declaration and their direct arguments. A
value parameter is looked at for itself and for its function or constructor. -/
def DeclForm.allowance : DeclForm → Nat
  | .valueParam _ ty _ => 2 * (1 + ty.args.length)
  | .receiverParam ty => 1 + ty.args.length
  | .function _ _ _ _ (some result) _ => 1 + result.args.length
  | .function _ _ _ _ none _ | .cls .. | .ctor .. | .typeParam .. => 0

namespace DeclTree

def allowance (tree : DeclTree) (id : DeclId) : Nat :=
  ((tree.get? id).map (·.form.allowance)).getD 0

variable {tree : DeclTree} {predicate : TypePredicate} {start : SymbolTable}

theorem sum_paramParts_le_of_sublist (tree : DeclTree) {params children : List DeclId}
    (sublist : params.Sublist children) :
    (params.map tree.paramParts).sum ≤ (children.map tree.paramParts).sum :=
  (sublist.map tree.paramParts).sum_le_sum fun _ _ => Nat.zero_le _

/-- What a declaration is judged by are its own types, and those of parameters that it lists. -/
theorem judgingCost_add_paramParts_le (tree : DeclTree) (start : SymbolTable) (id : DeclId) :
    tree.judgingCost start id + tree.paramParts id ≤
      tree.allowance id + ((tree.childrenOf id).map tree.paramParts).sum := by
  cases found : tree.get? id with
  | none => simp [judgingCost, paramParts, found]
  | some decl =>
    have cost : tree.judgingCost start id ≤
        ((tree.signatureTypes decl.form).flatMap TypeExpr.parts).length := by
      simp only [judgingCost, found]
      split
      · exact Nat.zero_le _
      · exact Nat.le_refl _
    rw [childrenOf_of_get? found, paramParts_of_get? found, allowance, found, Option.map_some,
      Option.getD_some]
    refine (Nat.add_le_add_right cost _).trans ?_
    cases decl.form with
    | cls name typeParams thisReceiver members =>
      simp [signatureTypes, DeclForm.paramType?]
    | ctor typeParams params body =>
      have inside : params.Sublist (DeclForm.ctor typeParams params body).children :=
        (List.sublist_append_right _ _).trans (List.sublist_append_left _ _)
      have listed := sum_paramParts_le_of_sublist tree inside
      rw [signatureTypes, length_paramTypes_parts]
      simpa [DeclForm.paramType?, DeclForm.allowance] using listed
    | function name typeParams receiver params result body =>
      have inside : params.Sublist
          (DeclForm.function name typeParams receiver params result body).children :=
        (List.sublist_append_right _ _).trans (List.sublist_append_left _ _)
      have listed := sum_paramParts_le_of_sublist tree inside
      rw [signatureTypes, List.flatMap_append, List.length_append, length_paramTypes_parts]
      cases result with
      | none => simpa [DeclForm.paramType?, DeclForm.allowance] using listed
      | some result =>
        simp only [DeclForm.paramType?, DeclForm.allowance, TypeExpr.parts, Option.toList_some,
          Option.toList_none, List.flatMap_singleton, List.flatMap_nil, List.length_cons,
          List.length_nil]
        omega
    | valueParam name ty default =>
      simp only [signatureTypes, DeclForm.paramType?, DeclForm.allowance, TypeExpr.parts,
        Option.toList_some, List.flatMap_singleton, List.length_cons]
      omega
    | receiverParam ty =>
      simp only [signatureTypes, DeclForm.paramType?, DeclForm.allowance, TypeExpr.parts,
        Option.toList_none, List.flatMap_singleton, List.flatMap_nil, List.length_cons,
        List.length_nil]
      omega
    | typeParam name bounds =>
      simp [signatureTypes, DeclForm.paramType?]

/-- Where a walk meets nothing twice, each parameter is listed once at most, so that all that is
looked at stays within what is allowed. -/
theorem sum_judgingCost_le (fits : ∀ root ∈ tree.roots, tree.Fits tree.maxDepth root) :
    (tree.preorder.map (tree.judgingCost start)).sum ≤ (tree.preorder.map tree.allowance).sum := by
  have each := List.sum_le_sum fun id (_ : id ∈ tree.preorder) =>
    judgingCost_add_paramParts_le tree start id
  have listed : (tree.preorder.map fun id =>
      ((tree.childrenOf id).map tree.paramParts).sum).sum ≤
      (tree.preorder.map tree.paramParts).sum := by
    have places := ((preorder_perm fits).map tree.paramParts).sum_eq
    rw [List.map_append, List.sum_append, List.map_flatMap, List.flatMap_def,
      List.sum_flatten, List.map_map, Function.comp_def] at places
    omega
  rw [List.sum_map_add, List.sum_map_add] at each
  omega

end DeclTree

namespace Chooser

variable {judge : Judge} {start : SymbolTable} {before after : CopyState Judge.Memory}
  {calls : List Call}

/-- However often it is asked about a declaration, the judge pays for it once. -/
theorem paid_of_answers (nested : judge.tree.Nested)
    (answers : (selective judge).Answers before calls after)
    (reached : ∀ call ∈ calls, judge.tree.Reachable call.decl)
    (grown : start.Grown before.symbols) (underway : judge.Underway [] before.memory) :
    judge.Underway [] after.memory ∧
      after.memory.consulted.length + before.memory.due judge.tree start ≤
        before.memory.consulted.length + after.memory.due judge.tree start := by
  induction answers with
  | none state => exact ⟨underway, Nat.le_refl _⟩
  | @ask before middle after call calls asked rest ih =>
    rw [List.forall_mem_cons] at reached
    obtain ⟨symbols, memory, chosen, rfl⟩ := ask_run_eq_ok_iff.1 asked
    obtain ⟨transformed, judged, replaced⟩ := selective_run_eq_ok_iff.1 chosen
    obtain ⟨still, here⟩ :=
      Judge.pays_verdict nested grown reached.1 _ _ _ underway judged
    obtain ⟨last, later⟩ := ih reached.2 (grown.of_replacementFor replaced) still
    have paid : memory.consulted.length + before.memory.due judge.tree start ≤
      before.memory.consulted.length + memory.due judge.tree start := here
    have paidLater : after.memory.consulted.length + memory.due judge.tree start ≤
      memory.consulted.length + after.memory.due judge.tree start := later
    exact ⟨last, by omega⟩

end Chooser

namespace DeclTree

variable {tree : DeclTree} {predicate : TypePredicate} {before after : RelabelState} {copy : Copy}

/-- A copy asks the predicate no more than it costs to judge what is under the roots once. -/
theorem length_consulted_le_of_copy (nested : tree.Nested)
    (run : (tree.copy predicate).run before = .ok copy after) :
    after.consulted.length ≤ before.consulted.length +
      (tree.preorder.map (tree.judgingCost before.symbols)).sum := by
  obtain ⟨last, walked, rfl⟩ := copy_run_eq_ok_iff.1 run
  obtain ⟨owners, copied⟩ := exists_copied_of_copyWith walked
  have consulted := copied.consulted
  have grown : before.symbols.Grown before.symbols.takeTree.2 := .takeTree _
  have start : (Judge.mk tree predicate).Underway [] { consulted := before.consulted } :=
    ⟨List.nodup_nil, fun _ inside => nomatch inside⟩
  obtain ⟨underway, paid⟩ := Chooser.paid_of_answers nested consulted.answers
    (fun call called => (consulted.decls _).1 (List.mem_map_of_mem called)) grown start
  have once : last.memory.due tree before.symbols ≤
      (tree.preorder.map (tree.judgingCost before.symbols)).sum :=
    sum_map_le_of_subset underway.distinct fun id decided =>
      (mem_preorder_iff copied.indexed.fits).2 (underway.reachable id decided)
  exact paid.trans (Nat.add_le_add_left once _)

/-- How often a copy asks the predicate is bounded by what is under the roots, where each declaration
counts once, however often it is mentioned. Where all of it but classes owns placeholders, nothing
is asked. -/
theorem consultations_of_copy (tree : DeclTree) (predicate : TypePredicate)
    (before after : RelabelState) (copy : Copy) (nested : tree.Nested)
    (run : (tree.copy predicate).run before = .ok copy after) :
    ∃ (ids : List DeclId) (asked : List TypeExpr),
      ids.Nodup ∧ (∀ id, id ∈ ids ↔ tree.Reachable id) ∧
      after.consulted = asked ++ before.consulted ∧
      asked.length ≤ (ids.map tree.allowance).sum ∧
      ((∀ id decl, tree.Reachable id → tree.get? id = some decl → decl.form.sort ≠ .cls →
        ∃ symbol, before.symbols.get? decl.symbol = some symbol ∧ symbol.isPlaceholder = true) →
        asked = []) := by
  obtain ⟨last, walked, -⟩ := copy_run_eq_ok_iff.1 run
  obtain ⟨owners, copied⟩ := exists_copied_of_copyWith walked
  obtain ⟨asked, consulted, -⟩ := exists_report_of_copy tree predicate before
  rw [Pass.stateAfter_of_ok run] at consulted
  have bound := length_consulted_le_of_copy nested run
  rw [consulted, List.length_append, Nat.add_comm] at bound
  have bounded := Nat.le_of_add_le_add_left bound
  refine ⟨tree.preorder, asked.reverse, copied.indexed.nodup_preorder,
    fun id => mem_preorder_iff copied.indexed.fits, consulted,
    bounded.trans (sum_judgingCost_le copied.indexed.fits), fun placeholders => ?_⟩
  have free : (tree.preorder.map (tree.judgingCost before.symbols)).sum = 0 := by
    refine List.sum_eq_zero fun cost listed => ?_
    obtain ⟨id, met, rfl⟩ := List.mem_map.1 listed
    have reached := (mem_preorder_iff copied.indexed.fits).1 met
    cases found : tree.get? id with
    | none => simp only [judgingCost, found]
    | some decl =>
      by_cases isClass : decl.form.sort = .cls
      · cases form : decl.form <;> simp [form, DeclForm.sort] at isClass
        simp [judgingCost, found, form, signatureTypes]
      · obtain ⟨symbol, known, placeholder⟩ := placeholders id decl reached found isClass
        simp [judgingCost, found, known, placeholder]
  rw [free] at bounded
  exact List.eq_nil_of_length_eq_zero (Nat.le_zero.1 bounded)

/-- Nothing has the annotation looked for; then all symbols are placeholders. -/
theorem consultations_of_copy_sample :
    (∃ (copy : Copy) (after : RelabelState) (ids : List DeclId),
      (sample.copy (.marked ⟨99⟩)).run ⟨sampleSymbols, []⟩ = .ok copy after ∧
      ids.Nodup ∧ (∀ id, id ∈ ids ↔ sample.Reachable id) ∧
      after.consulted.length ≤ (ids.map sample.allowance).sum) ∧
    ∃ (copy : Copy) (after : RelabelState),
      (sample.copy (.marked ⟨99⟩)).run ⟨sampleStandIns, []⟩ = .ok copy after ∧
      after.consulted = [] := by
  constructor
  · have done : (sample.copy (.marked ⟨99⟩)).succeeds ⟨sampleSymbols, []⟩ = true := by
      decide +kernel
    obtain ⟨copy, after, run⟩ := Pass.succeeds_eq_true_iff.1 done
    obtain ⟨ids, asked, distinct, reachable, consulted, bound, -⟩ :=
      consultations_of_copy sample (.marked ⟨99⟩) _ after copy nested_sample run
    rw [List.append_nil] at consulted
    exact ⟨copy, after, ids, run, distinct, reachable, consulted ▸ bound⟩
  · have done : (sample.copy (.marked ⟨99⟩)).succeeds ⟨sampleStandIns, []⟩ = true := by
      decide +kernel
    obtain ⟨copy, after, run⟩ := Pass.succeeds_eq_true_iff.1 done
    obtain ⟨ids, asked, -, -, consulted, -, free⟩ :=
      consultations_of_copy sample (.marked ⟨99⟩) _ after copy nested_sample run
    have all : ∀ decl ∈ sample.decls.toList, decl.form.sort ≠ .cls →
        (sampleStandIns.get? decl.symbol).any (·.isPlaceholder) = true := by decide +kernel
    have nothing : asked = [] := free fun id decl _ found plain =>
      Option.any_eq_true .. |>.1 (all decl (Array.mem_of_getElem? found).val plain)
    rw [nothing] at consulted
    exact ⟨copy, after, run, consulted⟩

/-- The bound is reached where nothing is found. -/
example : (((sample.copy (.marked ⟨99⟩)).stateAfter ⟨sampleSymbols, []⟩).consulted.length,
    (sample.preorder.map sample.allowance).sum) = (7, 7) := by decide +kernel

end DeclTree

end Relabel
