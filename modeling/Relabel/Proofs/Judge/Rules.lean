import Relabel.Predicate.Rules
import Relabel.Proofs.Judge.Reasons
import Relabel.Proofs.Judge.Renaming

namespace Relabel

namespace Condition

/-- Types that differ in nothing but what their arguments are meet the same conditions. -/
theorem holds_of_same {ty other : TypeExpr} (head : other.head = ty.head)
    (annotations : other.annotations = ty.annotations) (nullable : other.nullable = ty.nullable)
    (arity : other.args.length = ty.args.length) (condition : Condition) :
    condition.holds other = condition.holds ty := by
  cases condition with
  | any => rfl
  | named name => rw [holds, holds, head]
  | param symbol => rw [holds, holds, head]
  | function => rw [holds, holds, head]
  | marked marker => rw [holds, holds, TypeExpr.carries, TypeExpr.carries, annotations]
  | nullable => rw [holds, holds, nullable]
  | arity count => rw [holds, holds, arity]

/-- Whether the condition tells type parameters apart. -/
def namesParam : Condition → Bool
  | param _ => true
  | any | named _ | function | marked _ | nullable | arity _ => false

theorem holds_rename {condition : Condition} (free : condition.namesParam = false)
    (f : SymbolId → SymbolId) (ty : TypeExpr) :
    condition.holds (ty.rename f) = condition.holds ty := by
  obtain ⟨head, args, annotations, null⟩ := ty
  cases condition with
  | any | marked marker | nullable => rfl
  | named name => cases head <;> rfl
  | function => cases head <;> rfl
  | param symbol => exact nomatch free
  | arity count =>
    have same : (TypeExpr.renameList f args).length = args.length := by
      rw [TypeExpr.renameList_eq_map, List.length_map]
    exact congrArg (· == count) same

end Condition

namespace TypePredicate

theorem ofRules_nil (ty : TypeExpr) : ofRules [] ty = .ok false := rfl

/-- The first rule that applies decides. -/
theorem ofRules_cons (rule : Rule) (rules : List Rule) (ty : TypeExpr) :
    ofRules (rule :: rules) ty =
      if rule.condition.holds ty then rule.outcome else ofRules rules ty := by
  cases applies : rule.condition.holds ty <;> simp [ofRules, applies]

/-- Only the conditions of the rules matter to how a type is classified. -/
theorem ofRules_congr {rules : List Rule} {ty other : TypeExpr}
    (same : ∀ rule ∈ rules, rule.condition.holds other = rule.condition.holds ty) :
    ofRules rules other = ofRules rules ty := by
  induction rules with
  | nil => rfl
  | cons rule rules ih =>
    rw [ofRules_cons, ofRules_cons, same rule List.mem_cons_self,
      ih fun later inside => same later (List.mem_cons_of_mem rule inside)]

/-- The answer for a type depends on the type itself and on how many arguments it has. -/
theorem ofRules_of_same {ty other : TypeExpr} (head : other.head = ty.head)
    (annotations : other.annotations = ty.annotations) (nullable : other.nullable = ty.nullable)
    (arity : other.args.length = ty.args.length) (rules : List Rule) :
    ofRules rules other = ofRules rules ty :=
  ofRules_congr fun rule _ => rule.condition.holds_of_same head annotations nullable arity

/-- To look for an annotation is one rule. -/
theorem ofRules_marked (marker : Name) : ofRules [⟨.marked marker, .ok true⟩] = marked marker := by
  funext ty
  rw [ofRules_cons, ofRules_nil, Condition.holds, marked]
  cases ty.carries marker <;> rfl

/-- It fails for the types that come to a failing rule first. -/
theorem ofRules_eq_error_iff {rules : List Rule} {ty : TypeExpr} {failure : PredicateFailure} :
    ofRules rules ty = .error failure ↔ ∃ before rule after, rules = before ++ rule :: after ∧
      (∀ earlier ∈ before, earlier.condition.holds ty = false) ∧
      rule.condition.holds ty = true ∧ rule.outcome = .error failure := by
  constructor
  · intro failed
    rw [ofRules] at failed
    split at failed
    · next rule found =>
      obtain ⟨applies, before, after, split, earlier⟩ := List.find?_eq_some_iff_append.1 found
      exact ⟨before, rule, after, split, by simpa using earlier, applies, failed⟩
    · exact nomatch failed
  · rintro ⟨before, rule, after, split, earlier, applies, failed⟩
    have found : rules.find? (·.condition.holds ty) = some rule :=
      List.find?_eq_some_iff_append.2 ⟨applies, before, after, split, by simpa using earlier⟩
    rw [ofRules, found]
    exact failed

theorem total_ofRules {rules : List Rule}
    (decided : ∀ rule ∈ rules, ∃ answer, rule.outcome = .ok answer) : (ofRules rules).Total := by
  intro ty
  induction rules with
  | nil => exact ⟨false, rfl⟩
  | cons rule rules ih =>
    rw [ofRules_cons]
    split
    · exact decided rule List.mem_cons_self
    · exact ih fun later inside => decided later (List.mem_cons_of_mem rule inside)

/-- Rules that do not tell type parameters apart find a copied type to be what the original was. -/
theorem reaches_ofRules_rename {rules : List Rule}
    (free : ∀ rule ∈ rules, rule.condition.namesParam = false) (f : SymbolId → SymbolId)
    (ty : TypeExpr) : (ofRules rules).reaches (ty.rename f) = (ofRules rules).reaches ty :=
  reaches_rename (fun _ => ofRules_congr fun rule inside => Condition.holds_rename (free rule inside) f _)
    ty

end TypePredicate

end Relabel
