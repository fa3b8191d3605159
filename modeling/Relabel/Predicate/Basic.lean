import Relabel.Pass

namespace Relabel

/-- Tells which types are annotated in the sense of a pass; it may fail to classify a type. -/
abbrev TypePredicate := TypeExpr → Except PredicateFailure Bool

namespace TypePredicate

/-- The types with a given annotation. -/
def marked (marker : Name) : TypePredicate := fun ty => .ok (ty.carries marker)

/-- Whether a type or one of its direct arguments is annotated. Deeper arguments do not count. -/
def reaches (predicate : TypePredicate) (ty : TypeExpr) : Except PredicateFailure Bool :=
  (ty :: ty.args).anyM predicate

/-- The first types of a list, up to the one that ends the search of an annotated one. -/
def searched (predicate : TypePredicate) : List TypeExpr → List TypeExpr
  | [] => []
  | ty :: tys =>
    ty :: match predicate ty with
      | .ok false => searched predicate tys
      | .ok true | .error _ => []

/-- The types that the predicate is asked about to find out whether it reaches `ty`. -/
def consulted (predicate : TypePredicate) (ty : TypeExpr) : List TypeExpr :=
  predicate.searched (ty :: ty.args)

theorem searched_prefix (predicate : TypePredicate) (tys : List TypeExpr) :
    predicate.searched tys <+: tys := by
  induction tys with
  | nil => exact List.prefix_rfl
  | cons ty tys ih =>
    unfold searched
    rw [List.cons_prefix_cons]
    refine ⟨rfl, ?_⟩
    split
    · exact ih
    · exact List.nil_prefix
    · exact List.nil_prefix

theorem length_consulted_le (predicate : TypePredicate) (ty : TypeExpr) :
    (predicate.consulted ty).length ≤ 1 + ty.args.length := by
  have bound := (predicate.searched_prefix (ty :: ty.args)).length_le
  rw [List.length_cons] at bound
  unfold consulted
  omega

end TypePredicate

end Relabel
