import Relabel.Symbol.Table

namespace Relabel.SymbolTable

/-- The symbol of a copied declaration. It is the old one unless the declaration is transformed; then
it is a new placeholder of the same kind. Only a plain function hands on its source, as nothing else
identifies its placeholder until that is bound. -/
def replacementFor (table : SymbolTable) (old : SymbolId) (transformed : Bool) :
    Except Error (SymbolId × SymbolTable) :=
  if !transformed then .ok (old, table)
  else
    (table.get old).map fun symbol =>
      match symbol.kind with
      | .cls => (old, table)
      | .function .plain => table.addPlaceholder symbol.kind symbol.source
      | kind => table.addPlaceholder kind none

theorem replacementFor_untransformed (table : SymbolTable) (old : SymbolId) :
    table.replacementFor old false = .ok (old, table) := rfl

theorem replacementFor_class {table : SymbolTable} {old : SymbolId} {symbol : Symbol}
    (known : table.get? old = some symbol) (isClass : symbol.kind = .cls) :
    table.replacementFor old true = .ok (old, table) := by
  simp [replacementFor, SymbolTable.get, known, Except.map, isClass]

end Relabel.SymbolTable
