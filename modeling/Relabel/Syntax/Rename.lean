import Relabel.Syntax.Occurrence

namespace Relabel

def Occurrence.rename (f : SymbolId → SymbolId) (g : DeclId → DeclId) : Occurrence → Occurrence
  | .decl id => .decl (g id)
  | .symbol id => .symbol (f id)

mutual

/-- Renames every mentioned symbol with `f` and every declaration held with `g`. -/
def Expr.rename (f : SymbolId → SymbolId) (g : DeclId → DeclId) : Expr → Expr
  | .literal value => .literal value
  | .read symbol => .read (f symbol)
  | .call callee typeArgs receiver args =>
    .call (f callee) (TypeExpr.renameList f typeArgs) (Expr.renameOption f g receiver)
      (Expr.renameList f g args)
  | .construct ctor typeArgs args =>
    .construct (f ctor) (TypeExpr.renameList f typeArgs) (Expr.renameList f g args)
  | .lambda decl => .lambda (g decl)
  | .block stmts => .block (Stmt.renameList f g stmts)

def Expr.renameOption (f : SymbolId → SymbolId) (g : DeclId → DeclId) : Option Expr → Option Expr
  | none => none
  | some expr => some (expr.rename f g)

def Expr.renameList (f : SymbolId → SymbolId) (g : DeclId → DeclId) : List Expr → List Expr
  | [] => []
  | expr :: exprs => expr.rename f g :: Expr.renameList f g exprs

def Stmt.rename (f : SymbolId → SymbolId) (g : DeclId → DeclId) : Stmt → Stmt
  | .decl id => .decl (g id)
  | .expr value => .expr (value.rename f g)
  | .ret value => .ret (Expr.renameOption f g value)

def Stmt.renameList (f : SymbolId → SymbolId) (g : DeclId → DeclId) : List Stmt → List Stmt
  | [] => []
  | stmt :: stmts => stmt.rename f g :: Stmt.renameList f g stmts

end

def Body.rename (f : SymbolId → SymbolId) (g : DeclId → DeclId) (body : Body) : Body :=
  Stmt.renameList f g body

theorem TypeExpr.occurrencesList_renameList (f : SymbolId → SymbolId) (g : DeclId → DeclId)
    (tys : List TypeExpr) : TypeExpr.occurrencesList (TypeExpr.renameList f tys) =
      (TypeExpr.occurrencesList tys).map (Occurrence.rename f g) := by
  simp [TypeExpr.occurrencesList, TypeExpr.paramsList_renameList, Occurrence.rename,
    Function.comp_def]

theorem TypeExpr.occurrences_rename (f : SymbolId → SymbolId) (g : DeclId → DeclId)
    (ty : TypeExpr) :
    (ty.rename f).occurrences = ty.occurrences.map (Occurrence.rename f g) := by
  simp [TypeExpr.occurrences, TypeExpr.params_rename, Occurrence.rename, Function.comp_def]

mutual

theorem Expr.occurrences_rename (f : SymbolId → SymbolId) (g : DeclId → DeclId) : (expr : Expr) →
    (expr.rename f g).occurrences = expr.occurrences.map (Occurrence.rename f g)
  | .literal _ => rfl
  | .read _ => rfl
  | .call callee typeArgs receiver args => by
    simp [Expr.rename, Expr.occurrences, Occurrence.rename,
      TypeExpr.occurrencesList_renameList f g, Expr.occurrences_renameOption f g receiver,
      Expr.occurrences_renameList f g args]
  | .construct ctor typeArgs args => by
    simp [Expr.rename, Expr.occurrences, Occurrence.rename,
      TypeExpr.occurrencesList_renameList f g, Expr.occurrences_renameList f g args]
  | .lambda _ => rfl
  | .block stmts => by
    simp [Expr.rename, Expr.occurrences, Stmt.occurrences_renameList f g stmts]

theorem Expr.occurrences_renameOption (f : SymbolId → SymbolId) (g : DeclId → DeclId) :
    (expr : Option Expr) → Expr.occurrencesOption (Expr.renameOption f g expr) =
      (Expr.occurrencesOption expr).map (Occurrence.rename f g)
  | none => rfl
  | some expr => Expr.occurrences_rename f g expr

theorem Expr.occurrences_renameList (f : SymbolId → SymbolId) (g : DeclId → DeclId) :
    (exprs : List Expr) → Expr.occurrencesList (Expr.renameList f g exprs) =
      (Expr.occurrencesList exprs).map (Occurrence.rename f g)
  | [] => rfl
  | expr :: exprs => by
    simp [Expr.renameList, Expr.occurrencesList, Expr.occurrences_rename f g expr,
      Expr.occurrences_renameList f g exprs]

theorem Stmt.occurrences_rename (f : SymbolId → SymbolId) (g : DeclId → DeclId) : (stmt : Stmt) →
    (stmt.rename f g).occurrences = stmt.occurrences.map (Occurrence.rename f g)
  | .decl _ => rfl
  | .expr value => Expr.occurrences_rename f g value
  | .ret value => Expr.occurrences_renameOption f g value

theorem Stmt.occurrences_renameList (f : SymbolId → SymbolId) (g : DeclId → DeclId) :
    (stmts : List Stmt) → Stmt.occurrencesList (Stmt.renameList f g stmts) =
      (Stmt.occurrencesList stmts).map (Occurrence.rename f g)
  | [] => rfl
  | stmt :: stmts => by
    simp [Stmt.renameList, Stmt.occurrencesList, Stmt.occurrences_rename f g stmt,
      Stmt.occurrences_renameList f g stmts]

end

end Relabel
