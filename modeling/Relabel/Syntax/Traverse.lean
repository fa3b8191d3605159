import Relabel.Syntax.Body

namespace Relabel

variable {m : Type → Type} [Monad m]

namespace TypeExpr

def Head.traverse (f : SymbolId → m SymbolId) : Head → m Head
  | .param symbol => do pure (.param (← f symbol))
  | .named name => pure (.named name)
  | .function => pure .function

mutual

/-- Rebuilds a type, with `f` applied to each type parameter mentioned in it, in written order. -/
def traverse (f : SymbolId → m SymbolId) : TypeExpr → m TypeExpr
  | ⟨head, args, annotations, nullable⟩ => do
    let head ← head.traverse f
    let args ← traverseList f args
    pure ⟨head, args, annotations, nullable⟩

def traverseList (f : SymbolId → m SymbolId) : List TypeExpr → m (List TypeExpr)
  | [] => pure []
  | ty :: tys => do
    let ty ← ty.traverse f
    let tys ← traverseList f tys
    pure (ty :: tys)

end

end TypeExpr

mutual

/-- Rebuilds an expression, with `f` applied to each symbol mentioned and `g` to each declaration held
in it, in written order. -/
def Expr.traverse (f : SymbolId → m SymbolId) (g : DeclId → m DeclId) : Expr → m Expr
  | .literal value => pure (.literal value)
  | .read symbol => do pure (.read (← f symbol))
  | .call callee typeArgs receiver args => do
    let callee ← f callee
    let typeArgs ← TypeExpr.traverseList f typeArgs
    let receiver ← Expr.traverseOption f g receiver
    let args ← Expr.traverseList f g args
    pure (.call callee typeArgs receiver args)
  | .construct ctor typeArgs args => do
    let ctor ← f ctor
    let typeArgs ← TypeExpr.traverseList f typeArgs
    let args ← Expr.traverseList f g args
    pure (.construct ctor typeArgs args)
  | .lambda decl => do pure (.lambda (← g decl))
  | .block stmts => do pure (.block (← Stmt.traverseList f g stmts))

def Expr.traverseOption (f : SymbolId → m SymbolId) (g : DeclId → m DeclId) :
    Option Expr → m (Option Expr)
  | none => pure none
  | some expr => do pure (some (← expr.traverse f g))

def Expr.traverseList (f : SymbolId → m SymbolId) (g : DeclId → m DeclId) :
    List Expr → m (List Expr)
  | [] => pure []
  | expr :: exprs => do
    let expr ← expr.traverse f g
    let exprs ← Expr.traverseList f g exprs
    pure (expr :: exprs)

def Stmt.traverse (f : SymbolId → m SymbolId) (g : DeclId → m DeclId) : Stmt → m Stmt
  | .decl id => do pure (.decl (← g id))
  | .expr value => do pure (.expr (← value.traverse f g))
  | .ret value => do pure (.ret (← Expr.traverseOption f g value))

def Stmt.traverseList (f : SymbolId → m SymbolId) (g : DeclId → m DeclId) :
    List Stmt → m (List Stmt)
  | [] => pure []
  | stmt :: stmts => do
    let stmt ← stmt.traverse f g
    let stmts ← Stmt.traverseList f g stmts
    pure (stmt :: stmts)

end

def Body.traverse (f : SymbolId → m SymbolId) (g : DeclId → m DeclId) (body : Body) : m Body :=
  Stmt.traverseList f g body

end Relabel
