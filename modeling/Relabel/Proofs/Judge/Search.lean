import Relabel.Judge
import Relabel.Proofs.Logs

namespace Relabel

/-- Some type could not be classified. -/
def PassError.OfPredicate (error : PassError) : Prop :=
  ∃ owner failure, error = .predicate owner failure

/-- A search for an annotated type in a list, as it is done for `owner`: which types it has asked about,
and how it has ended. It goes on as long as types are not annotated, and it may stop for something else
than a type. -/
inductive Search (predicate : TypePredicate) (owner : DeclId) :
    (tys asked : List TypeExpr) → Except PassError Bool → Prop where
  | nowhere {tys : List TypeExpr} (no : ∀ ty ∈ tys, predicate ty = .ok false) :
    Search predicate owner tys tys (.ok false)
  | found {asked rest : List TypeExpr} {ty : TypeExpr}
    (no : ∀ other ∈ asked, predicate other = .ok false) (yes : predicate ty = .ok true) :
    Search predicate owner (asked ++ ty :: rest) (asked ++ [ty]) (.ok true)
  | failed {asked rest : List TypeExpr} {ty : TypeExpr} {failure : PredicateFailure}
    (no : ∀ other ∈ asked, predicate other = .ok false) (fails : predicate ty = .error failure) :
    Search predicate owner (asked ++ ty :: rest) (asked ++ [ty])
      (.error (.predicate owner failure))
  | stopped {asked rest : List TypeExpr} {error : PassError}
    (no : ∀ other ∈ asked, predicate other = .ok false) (foreign : ¬error.OfPredicate) :
    Search predicate owner (asked ++ rest) asked (.error error)

namespace Search

variable {predicate : TypePredicate} {owner : DeclId} {tys more asked later : List TypeExpr}
  {result : Except PassError Bool}

/-- A search that is stopped before it has asked about any type. -/
theorem start {error : PassError} (foreign : ¬error.OfPredicate) :
    Search predicate owner tys [] (.error error) := by
  have stops : Search predicate owner ([] ++ tys) [] (.error error) :=
    .stopped (List.forall_mem_nil _) foreign
  exact stops

/-- A search in the types that come after those where nothing has been found. -/
theorem append (first : Search predicate owner tys asked (.ok false))
    (second : Search predicate owner more later result) :
    Search predicate owner (tys ++ more) (asked ++ later) result := by
  cases first with
  | nowhere none =>
    cases second with
    | nowhere no => exact .nowhere (List.forall_mem_append.2 ⟨none, no⟩)
    | found no yes =>
      rw [← List.append_assoc, ← List.append_assoc]
      exact .found (List.forall_mem_append.2 ⟨none, no⟩) yes
    | failed no fails =>
      rw [← List.append_assoc, ← List.append_assoc]
      exact .failed (List.forall_mem_append.2 ⟨none, no⟩) fails
    | stopped no foreign =>
      rw [← List.append_assoc]
      exact .stopped (List.forall_mem_append.2 ⟨none, no⟩) foreign

/-- Where a search has ended, it does not come to what is listed after that. -/
theorem append_right (search : Search predicate owner tys asked result) (ended : result ≠ .ok false)
    (more : List TypeExpr) : Search predicate owner (tys ++ more) asked result := by
  cases search with
  | nowhere => exact absurd rfl ended
  | found no yes =>
    rw [List.append_assoc, List.cons_append]
    exact .found no yes
  | failed no fails =>
    rw [List.append_assoc, List.cons_append]
    exact .failed no fails
  | stopped no foreign =>
    rw [List.append_assoc]
    exact .stopped no foreign

/-- To ask about the types in a list, one after the other, is to search it. -/
theorem anyM (predicate : TypePredicate) (owner : DeclId) (tys : List TypeExpr) :
    Search predicate owner tys (predicate.searched tys)
      ((tys.anyM predicate).mapError (.predicate owner)) := by
  induction tys with
  | nil => exact .nowhere (List.forall_mem_nil _)
  | cons ty tys ih =>
    rw [List.anyM, TypePredicate.searched]
    cases answer : predicate ty with
    | error failure =>
      have here : Search predicate owner ([] ++ ty :: tys) ([] ++ [ty])
          (.error (.predicate owner failure)) := .failed (List.forall_mem_nil _) answer
      exact here
    | ok annotated =>
      cases annotated with
      | true =>
        have here : Search predicate owner ([] ++ ty :: tys) ([] ++ [ty]) (.ok true) :=
          .found (List.forall_mem_nil _) answer
        exact here
      | false =>
        have here : Search predicate owner [ty] [ty] (.ok false) :=
          .nowhere (List.forall_mem_singleton.2 answer)
        exact here.append ih

end Search

/-- A type with its direct arguments. -/
def TypeExpr.parts (ty : TypeExpr) : List TypeExpr := ty :: ty.args

/-- The type of a value parameter. -/
def DeclForm.paramType? : DeclForm → Option TypeExpr
  | .valueParam _ ty _ => some ty
  | _ => none

/-- The types of those parameters that are value parameters. -/
def DeclTree.paramTypes (tree : DeclTree) (params : List DeclId) : List TypeExpr :=
  params.filterMap fun param => (tree.get? param).bind fun decl => decl.form.paramType?

namespace Judge

variable {judge : Judge} {owner : DeclId} {tys more : List TypeExpr}

/-- The pass is a search in these types. -/
def Searches (judge : Judge) (owner : DeclId) (tys : List TypeExpr) (pass : Pass Memory Bool) :
    Prop :=
  Pass.Logs (·.consulted) (fun _ => True) (Search judge.predicate owner tys) pass

namespace Searches

theorem no : judge.Searches owner [] (pure false) :=
  .of_pure (.nowhere (List.forall_mem_nil _))

/-- What comes next is a search too, unless something has been found. -/
theorem bind {first : Pass Memory Bool} {next : Bool → Pass Memory Bool}
    (one : judge.Searches owner tys first) (found : next true = pure true)
    (other : judge.Searches owner more (next false)) :
    judge.Searches owner (tys ++ more) (first >>= next) := by
  let specNext (found : Bool) (later : List TypeExpr) (result : Except PassError Bool) : Prop :=
    if found then later = [] ∧ result = .ok true else Search judge.predicate owner more later result
  refine Pass.Logs.bind specNext one ?_ ?_ ?_
  · intro annotated
    cases annotated with
    | true =>
      rw [found]
      exact .of_pure ⟨rfl, rfl⟩
    | false => exact other
  · intro asked error search
    exact search.append_right (by simp) more
  · intro asked annotated later result search onward
    cases annotated with
    | true =>
      obtain ⟨rfl, rfl⟩ := onward
      rw [List.append_nil]
      exact search.append_right (by simp) more
    | false => exact search.append onward

theorem orM {first second : Pass Memory Bool} (one : judge.Searches owner tys first)
    (other : judge.Searches owner more second) :
    judge.Searches owner (tys ++ more) (first <||> second) :=
  one.bind rfl other

theorem anyM {α : Type} {list : List α} {types : α → List TypeExpr} {test : α → Pass Memory Bool}
    (each : ∀ a, judge.Searches owner (types a) (test a)) :
    judge.Searches owner (list.flatMap types) (list.anyM test) := by
  induction list with
  | nil => exact no
  | cons a list ih =>
    rw [List.flatMap_cons, List.anyM]
    exact (each a).bind rfl ih

end Searches

theorem searches_annotated (owner : DeclId) (ty : TypeExpr) :
    judge.Searches owner ty.parts (judge.annotated owner ty) := by
  refine Pass.Logs.modify_bind (judge.predicate.consulted ty) (fun _ _ => trivial)
    (fun _ => rfl) ?_
  refine Pass.Logs.silent ((judge.predicate.reaches ty).mapError (.predicate owner))
    (fun _ _ => trivial) ?_ ?_ ?_
  · intro before
    cases judge.predicate.reaches ty <;> rfl
  · intro before
    cases judge.predicate.reaches ty <;> rfl
  · rw [List.append_nil]
    exact Search.anyM _ _ _

/-- The types of the value parameters are searched in their order. A parameter that is not in the tree
stops the search. -/
theorem searches_paramAnnotated (owner : DeclId) (params : List DeclId) :
    judge.Searches owner ((judge.tree.paramTypes params).flatMap TypeExpr.parts)
      (judge.paramAnnotated owner params) := by
  rw [DeclTree.paramTypes, List.filterMap_eq_flatMap_toList, List.flatMap_assoc]
  refine Searches.anyM fun param => ?_
  refine Pass.Logs.ofExcept_bind ?_ ?_
  · intro decl found
    have own : judge.Searches owner (decl.form.paramType?.toList.flatMap TypeExpr.parts)
        (match decl.form with
        | .valueParam _ ty _ => judge.annotated owner ty
        | _ => pure false) := by
      cases decl.form with
      | valueParam name ty default =>
        simpa [DeclForm.paramType?] using searches_annotated owner ty
      | _ => exact .no
    rw [DeclTree.get_eq_ok_iff.1 found]
    exact own
  · intro error _
    exact Search.start (by simp [PassError.OfPredicate])

theorem searches_resultAnnotated (owner : DeclId) (result : Option TypeExpr) :
    judge.Searches owner (result.toList.flatMap TypeExpr.parts)
      (judge.resultAnnotated owner result) := by
  cases result with
  | none => exact .no
  | some ty => simpa [resultAnnotated] using searches_annotated owner ty

end Judge

end Relabel
