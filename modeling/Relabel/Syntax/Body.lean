import Relabel.Syntax.TypeExpr

namespace Relabel

inductive Literal where
  | unit
  | bool (value : Bool)
  | int (value : Int)
  | text (value : Name)
deriving DecidableEq, Repr

mutual

/-- An expression. Function literals and blocks hold declarations of the enclosing tree. -/
inductive Expr where
  | literal (value : Literal)
  | read (symbol : SymbolId)
  | call (callee : SymbolId) (typeArgs : List TypeExpr) (receiver : Option Expr) (args : List Expr)
  | construct (ctor : SymbolId) (typeArgs : List TypeExpr) (args : List Expr)
  | lambda (decl : DeclId)
  | block (stmts : List Stmt)

inductive Stmt where
  | decl (id : DeclId)
  | expr (value : Expr)
  | ret (value : Option Expr)

end

/-- The statements of a function or constructor. -/
abbrev Body := List Stmt

mutual

def Expr.decEq : (a b : Expr) → Decidable (a = b)
  | .literal v, e => match e with
    | .literal v' => decidable_of_iff (v = v') (by simp)
    | .read _ | .call .. | .construct .. | .lambda _ | .block _ => isFalse nofun
  | .read s, e => match e with
    | .read s' => decidable_of_iff (s = s') (by simp)
    | .literal _ | .call .. | .construct .. | .lambda _ | .block _ => isFalse nofun
  | .call c ts r as, e => match e with
    | .call c' ts' r' as' =>
      have := Expr.decEqOption r r'
      have := Expr.decEqList as as'
      decidable_of_iff (c = c' ∧ ts = ts' ∧ r = r' ∧ as = as') (by simp)
    | .literal _ | .read _ | .construct .. | .lambda _ | .block _ => isFalse nofun
  | .construct c ts as, e => match e with
    | .construct c' ts' as' =>
      have := Expr.decEqList as as'
      decidable_of_iff (c = c' ∧ ts = ts' ∧ as = as') (by simp)
    | .literal _ | .read _ | .call .. | .lambda _ | .block _ => isFalse nofun
  | .lambda d, e => match e with
    | .lambda d' => decidable_of_iff (d = d') (by simp)
    | .literal _ | .read _ | .call .. | .construct .. | .block _ => isFalse nofun
  | .block ss, e => match e with
    | .block ss' =>
      have := Stmt.decEqList ss ss'
      decidable_of_iff (ss = ss') (by simp)
    | .literal _ | .read _ | .call .. | .construct .. | .lambda _ => isFalse nofun

def Expr.decEqOption : (a b : Option Expr) → Decidable (a = b)
  | none, none => isTrue rfl
  | none, some _ => isFalse nofun
  | some _, none => isFalse nofun
  | some a, some b =>
    have := Expr.decEq a b
    decidable_of_iff (a = b) (by simp)

def Expr.decEqList : (as bs : List Expr) → Decidable (as = bs)
  | [], [] => isTrue rfl
  | [], _ :: _ => isFalse nofun
  | _ :: _, [] => isFalse nofun
  | a :: as, b :: bs =>
    have := Expr.decEq a b
    have := Expr.decEqList as bs
    decidable_of_iff (a = b ∧ as = bs) (by simp)

def Stmt.decEq : (a b : Stmt) → Decidable (a = b)
  | .decl d, s => match s with
    | .decl d' => decidable_of_iff (d = d') (by simp)
    | .expr _ | .ret _ => isFalse nofun
  | .expr e, s => match s with
    | .expr e' =>
      have := Expr.decEq e e'
      decidable_of_iff (e = e') (by simp)
    | .decl _ | .ret _ => isFalse nofun
  | .ret e, s => match s with
    | .ret e' =>
      have := Expr.decEqOption e e'
      decidable_of_iff (e = e') (by simp)
    | .decl _ | .expr _ => isFalse nofun

def Stmt.decEqList : (as bs : List Stmt) → Decidable (as = bs)
  | [], [] => isTrue rfl
  | [], _ :: _ => isFalse nofun
  | _ :: _, [] => isFalse nofun
  | a :: as, b :: bs =>
    have := Stmt.decEq a b
    have := Stmt.decEqList as bs
    decidable_of_iff (a = b ∧ as = bs) (by simp)

end

instance : DecidableEq Expr := Expr.decEq

instance : DecidableEq Stmt := Stmt.decEq

mutual

/-- The declarations directly in an expression, in written order. What those declare in turn belongs
to them. -/
def Expr.nested : Expr → List DeclId
  | .literal _ | .read _ => []
  | .call _ _ receiver args => Expr.nestedOption receiver ++ Expr.nestedList args
  | .construct _ _ args => Expr.nestedList args
  | .lambda decl => [decl]
  | .block stmts => Stmt.nestedList stmts

def Expr.nestedOption : Option Expr → List DeclId
  | none => []
  | some expr => expr.nested

def Expr.nestedList : List Expr → List DeclId
  | [] => []
  | expr :: exprs => expr.nested ++ Expr.nestedList exprs

def Stmt.nested : Stmt → List DeclId
  | .decl id => [id]
  | .expr value => value.nested
  | .ret value => Expr.nestedOption value

def Stmt.nestedList : List Stmt → List DeclId
  | [] => []
  | stmt :: stmts => stmt.nested ++ Stmt.nestedList stmts

end

/-- The declarations directly in a body, in written order. -/
def Body.nested (body : Body) : List DeclId := Stmt.nestedList body

end Relabel
