import Relabel.Tree.Basic

namespace Relabel

/-- A declaration tree with the symbol table that its symbols are in. -/
structure CompilationUnit where
  symbols : SymbolTable
  tree : DeclTree
deriving DecidableEq

namespace CompilationUnit

/-- An empty tree with the next free number. -/
def start (symbols : SymbolTable) : CompilationUnit :=
  let (id, symbols) := symbols.takeTree
  ⟨symbols, { id }⟩

/-- Adds a declaration and binds its symbol to it. The declaration stays when the binding fails. -/
def declare (unit : CompilationUnit) (decl : Decl) :
    (DeclId × Except SymbolTable.Error BindResult) × CompilationUnit :=
  let (id, tree) := unit.tree.add decl
  match unit.symbols.bind decl.symbol ⟨tree.id, id⟩ decl.span with
  | .ok (result, symbols) => ((id, .ok result), ⟨symbols, tree⟩)
  | .error error => ((id, .error error), { unit with tree })

/-- Adds a declaration with a symbol of its own. -/
def add (unit : CompilationUnit) (origin : Symbol.Origin) (kind : Symbol.Kind) (form : DeclForm)
    (span : Span) : DeclId × CompilationUnit :=
  let (symbol, symbols) := unit.symbols.add kind origin (some span)
  let ((id, _), unit) := { unit with symbols }.declare { symbol, form, span }
  (id, unit)

/-- Adds a declaration of the source program whose place there is not known. -/
def addDeclared (unit : CompilationUnit) (kind : Symbol.Kind) (form : DeclForm) :
    DeclId × CompilationUnit :=
  unit.add .declared kind form .dummy

def addRoot (unit : CompilationUnit) (id : DeclId) : CompilationUnit :=
  { unit with tree := unit.tree.addRoot id }

def edit? (unit : CompilationUnit) (id : DeclId) (change : DeclEdit) : Option CompilationUnit :=
  (unit.tree.edit? id change).map fun tree => { unit with tree }

end CompilationUnit

/-- How a function holds another one in its body. -/
inductive Nesting where
  | lambda
  | localDecl
  | returned
deriving DecidableEq, Repr

def Nesting.stmt (style : Nesting) (inner : DeclId) : Stmt :=
  match style with
  | lambda => .expr (.lambda inner)
  | localDecl => .decl inner
  | returned => .ret (some (.block [.expr (.lambda inner)]))

/-- Wraps a declaration in `depth` nameless functions, each the whole body of the next one. The answer
is the outermost of them. -/
def CompilationUnit.nest (unit : CompilationUnit) (style : Nesting) (inner : DeclId) :
    (depth : Nat) → DeclId × CompilationUnit
  | 0 => (inner, unit)
  | depth + 1 =>
    let (inner, unit) := unit.nest style inner depth
    unit.add .declared (.function .plain) (.function .empty [] none [] none (some [style.stmt inner]))
      ⟨depth, depth + 1⟩

end Relabel
