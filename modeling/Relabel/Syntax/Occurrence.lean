import Relabel.Syntax.Body

namespace Relabel

/-- A place in a signature or body that holds a declaration or mentions a symbol. -/
inductive Occurrence where
  | decl (id : DeclId)
  | symbol (id : SymbolId)
deriving DecidableEq, Repr

namespace Occurrence

def decl? : Occurrence → Option DeclId
  | decl id => some id
  | symbol _ => none

def symbol? : Occurrence → Option SymbolId
  | decl _ => none
  | symbol id => some id

end Occurrence

def TypeExpr.occurrences (ty : TypeExpr) : List Occurrence := ty.params.map .symbol

def TypeExpr.occurrencesList (tys : List TypeExpr) : List Occurrence :=
  (TypeExpr.paramsList tys).map .symbol

mutual

/-- What an expression mentions and holds, in written order: a callee, its type arguments, the
receiver, the arguments. -/
def Expr.occurrences : Expr → List Occurrence
  | .literal _ => []
  | .read symbol => [.symbol symbol]
  | .call callee typeArgs receiver args =>
    .symbol callee :: (TypeExpr.occurrencesList typeArgs ++ Expr.occurrencesOption receiver ++
      Expr.occurrencesList args)
  | .construct ctor typeArgs args =>
    .symbol ctor :: (TypeExpr.occurrencesList typeArgs ++ Expr.occurrencesList args)
  | .lambda decl => [.decl decl]
  | .block stmts => Stmt.occurrencesList stmts

def Expr.occurrencesOption : Option Expr → List Occurrence
  | none => []
  | some expr => expr.occurrences

def Expr.occurrencesList : List Expr → List Occurrence
  | [] => []
  | expr :: exprs => expr.occurrences ++ Expr.occurrencesList exprs

def Stmt.occurrences : Stmt → List Occurrence
  | .decl id => [.decl id]
  | .expr value => value.occurrences
  | .ret value => Expr.occurrencesOption value

def Stmt.occurrencesList : List Stmt → List Occurrence
  | [] => []
  | stmt :: stmts => stmt.occurrences ++ Stmt.occurrencesList stmts

end

def Body.occurrences (body : Body) : List Occurrence := Stmt.occurrencesList body

theorem TypeExpr.decls_of_occurrencesList (tys : List TypeExpr) :
    (TypeExpr.occurrencesList tys).filterMap Occurrence.decl? = [] := by
  simp [TypeExpr.occurrencesList, List.filterMap_map, Occurrence.decl?, Function.comp_def]

theorem TypeExpr.decls_of_occurrences (ty : TypeExpr) :
    ty.occurrences.filterMap Occurrence.decl? = [] := by
  simp [TypeExpr.occurrences, List.filterMap_map, Occurrence.decl?, Function.comp_def]

mutual

theorem Expr.decls_of_occurrences : (expr : Expr) →
    expr.occurrences.filterMap Occurrence.decl? = expr.nested
  | .literal _ => rfl
  | .read _ => rfl
  | .call callee typeArgs receiver args => by
    simp [Expr.occurrences, Expr.nested, Occurrence.decl?, List.filterMap_cons,
      TypeExpr.decls_of_occurrencesList, Expr.decls_of_occurrencesOption receiver,
      Expr.decls_of_occurrencesList args]
  | .construct ctor typeArgs args => by
    simp [Expr.occurrences, Expr.nested, Occurrence.decl?, List.filterMap_cons,
      TypeExpr.decls_of_occurrencesList, Expr.decls_of_occurrencesList args]
  | .lambda _ => rfl
  | .block stmts => by
    simp [Expr.occurrences, Expr.nested, Stmt.decls_of_occurrencesList stmts]

theorem Expr.decls_of_occurrencesOption : (expr : Option Expr) →
    (Expr.occurrencesOption expr).filterMap Occurrence.decl? = Expr.nestedOption expr
  | none => rfl
  | some expr => Expr.decls_of_occurrences expr

theorem Expr.decls_of_occurrencesList : (exprs : List Expr) →
    (Expr.occurrencesList exprs).filterMap Occurrence.decl? = Expr.nestedList exprs
  | [] => rfl
  | expr :: exprs => by
    simp [Expr.occurrencesList, Expr.nestedList, Expr.decls_of_occurrences expr,
      Expr.decls_of_occurrencesList exprs]

theorem Stmt.decls_of_occurrences : (stmt : Stmt) →
    stmt.occurrences.filterMap Occurrence.decl? = stmt.nested
  | .decl _ => rfl
  | .expr value => Expr.decls_of_occurrences value
  | .ret value => Expr.decls_of_occurrencesOption value

theorem Stmt.decls_of_occurrencesList : (stmts : List Stmt) →
    (Stmt.occurrencesList stmts).filterMap Occurrence.decl? = Stmt.nestedList stmts
  | [] => rfl
  | stmt :: stmts => by
    simp [Stmt.occurrencesList, Stmt.nestedList, Stmt.decls_of_occurrences stmt,
      Stmt.decls_of_occurrencesList stmts]

end

end Relabel
