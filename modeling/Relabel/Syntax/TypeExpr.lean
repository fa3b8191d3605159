import Relabel.Id
import Relabel.Interner

namespace Relabel

/-- What a type refers to: a named type, a type parameter, or the function types. -/
inductive TypeExpr.Head where
  | named (name : Name)
  | param (symbol : SymbolId)
  | function
deriving DecidableEq, Repr

/-- A type as written in a signature. The last argument of a function type is its result. -/
structure TypeExpr where
  head : TypeExpr.Head
  args : List TypeExpr := []
  annotations : List Name := []
  nullable : Bool := false
deriving Repr

namespace TypeExpr

mutual

def decEq : (a b : TypeExpr) → Decidable (a = b)
  | ⟨h, as, ns, q⟩, ⟨h', as', ns', q'⟩ =>
    have := decEqList as as'
    decidable_of_iff (h = h' ∧ as = as' ∧ ns = ns' ∧ q = q') (by simp)

def decEqList : (as bs : List TypeExpr) → Decidable (as = bs)
  | [], [] => isTrue rfl
  | [], _ :: _ => isFalse nofun
  | _ :: _, [] => isFalse nofun
  | a :: as, b :: bs =>
    have := decEq a b
    have := decEqList as bs
    decidable_of_iff (a = b ∧ as = bs) (by simp)

end

instance : DecidableEq TypeExpr := decEq

def ofName (name : Name) : TypeExpr := { head := .named name }

def ofParam (symbol : SymbolId) : TypeExpr := { head := .param symbol }

def arrow (params : List TypeExpr) (result : TypeExpr) : TypeExpr :=
  { head := .function, args := params ++ [result] }

def appliedTo (ty : TypeExpr) (args : List TypeExpr) : TypeExpr := { ty with args }

/-- Adds an annotation unless the type has it already. -/
def annotate (ty : TypeExpr) (marker : Name) : TypeExpr :=
  if marker ∈ ty.annotations then ty
  else { ty with annotations := ty.annotations ++ [marker] }

def orNull (ty : TypeExpr) : TypeExpr := { ty with nullable := true }

/-- Whether the type itself, and not one of its arguments, is annotated with the marker. -/
def carries (ty : TypeExpr) (marker : Name) : Bool := ty.annotations.contains marker

/-- The type parameter that a head refers to, if any. -/
def Head.params : Head → List SymbolId
  | .param symbol => [symbol]
  | .named _ | .function => []

mutual

/-- The type parameters mentioned at any depth, the head before the arguments. -/
def params : TypeExpr → List SymbolId
  | ⟨head, args, _, _⟩ => head.params ++ paramsList args

def paramsList : List TypeExpr → List SymbolId
  | [] => []
  | ty :: tys => ty.params ++ paramsList tys

end

def Head.rename (f : SymbolId → SymbolId) : Head → Head
  | .param symbol => .param (f symbol)
  | .named name => .named name
  | .function => .function

mutual

/-- Renames the type parameters mentioned at any depth. -/
def rename (f : SymbolId → SymbolId) : TypeExpr → TypeExpr
  | ⟨head, args, annotations, nullable⟩ =>
    ⟨head.rename f, renameList f args, annotations, nullable⟩

def renameList (f : SymbolId → SymbolId) : List TypeExpr → List TypeExpr
  | [] => []
  | ty :: tys => ty.rename f :: renameList f tys

end

theorem renameList_eq_map (f : SymbolId → SymbolId) (tys : List TypeExpr) :
    renameList f tys = tys.map (rename f) := by
  induction tys with
  | nil => rfl
  | cons ty tys ih => simp [renameList, ih]

theorem Head.params_rename (f : SymbolId → SymbolId) (head : Head) :
    (head.rename f).params = head.params.map f := by
  cases head <;> rfl

mutual

theorem params_rename (f : SymbolId → SymbolId) : (ty : TypeExpr) →
    (ty.rename f).params = ty.params.map f
  | ⟨head, args, _, _⟩ => by
    simp [rename, params, Head.params_rename f head, paramsList_renameList f args]

theorem paramsList_renameList (f : SymbolId → SymbolId) : (tys : List TypeExpr) →
    paramsList (renameList f tys) = (paramsList tys).map f
  | [] => rfl
  | ty :: tys => by
    simp [renameList, paramsList, params_rename f ty, paramsList_renameList f tys]

end

theorem carries_annotate (ty : TypeExpr) (marker : Name) :
    (ty.annotate marker).carries marker = true := by
  unfold annotate carries
  split <;> simp_all

end TypeExpr

end Relabel
