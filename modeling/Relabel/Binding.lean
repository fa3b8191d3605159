import Relabel.Tree.Walk

namespace Relabel

/-- How many declarations were visited, and how many placeholders were bound then or earlier. -/
structure BindingStats where
  visited : Nat := 0
  bound : Nat := 0
  alreadyBound : Nat := 0
deriving DecidableEq, Repr

def BindingStats.count (stats : BindingStats) : BindResult → BindingStats
  | .bound => { stats with bound := stats.bound + 1 }
  | .alreadyBound => { stats with alreadyBound := stats.alreadyBound + 1 }

namespace DeclTree

/-- Binds the symbol of a declaration to it if that symbol is a placeholder. -/
def bindOwner (tree : DeclTree) (id : DeclId) : Pass (SymbolTable × BindingStats) Unit := do
  let decl ← Pass.decl tree id
  let (symbols, stats) ← get
  let symbol ← Pass.symbol symbols decl.symbol
  let stats := { stats with visited := stats.visited + 1 }
  if symbol.isPlaceholder && symbol.kind.replaceable then
    if decl.form.admits symbol.kind then
      let (result, symbols) ←
        Pass.ofExcept .inTable (symbols.bind decl.symbol ⟨tree.id, id⟩ decl.span)
      set (symbols, stats.count result)
    else
      throw (.misplaced decl.symbol id symbol.kind decl.form.sort)
  else
    set (symbols, stats)

/-- Binds the placeholders that the declarations under the roots own. -/
def bindPlaceholders (tree : DeclTree) : Pass SymbolTable BindingStats := fun symbols =>
  match (tree.walkAll tree.bindOwner).run (symbols, {}) with
  | .ok _ (symbols, stats) => .ok stats symbols
  | .error error (symbols, _) => .error error symbols

def checkOwner (tree : DeclTree) (symbols : SymbolTable) (id : DeclId) : Pass Unit Unit := do
  let decl ← Pass.decl tree id
  let symbol ← Pass.symbol symbols decl.symbol
  unless symbol.isBound do throw (.neverBound decl.symbol id symbol.kind)

/-- Fails at the first declaration under the roots whose symbol is not bound. It may be bound to
another tree, as a copied declaration can keep its symbol. -/
def checkBound (tree : DeclTree) (symbols : SymbolTable) : Except PassError Unit :=
  (tree.walkAll (tree.checkOwner symbols)).toResult

end DeclTree

end Relabel
