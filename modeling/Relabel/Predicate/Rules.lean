import Relabel.Predicate.Basic

namespace Relabel

/-- A property of a type itself; its arguments matter by their number only. -/
inductive Condition where
  | any
  | named (name : Name)
  | param (symbol : SymbolId)
  | function
  | marked (marker : Name)
  | nullable
  | arity (count : Nat)
deriving DecidableEq, Repr

def Condition.holds (ty : TypeExpr) : Condition → Bool
  | any => true
  | named name => ty.head == .named name
  | param symbol => ty.head == .param symbol
  | function => ty.head == .function
  | marked marker => ty.carries marker
  | nullable => ty.nullable
  | arity count => ty.args.length == count

/-- The answer for the types that meet a condition. -/
structure Rule where
  condition : Condition
  outcome : Except PredicateFailure Bool

/-- The first rule that applies decides; a type without such a rule is not annotated. -/
def TypePredicate.ofRules (rules : List Rule) : TypePredicate := fun ty =>
  match rules.find? (·.condition.holds ty) with
  | some rule => rule.outcome
  | none => .ok false

end Relabel
