import Relabel.Copy.Basic
import Relabel.Symbol.Replacement

namespace Relabel

namespace Chooser

variable {σ : Type}

/-- Every declaration keeps its symbol. -/
def keep : Chooser σ := fun _ old => pure old

/-- The listed declarations get the symbols listed with them. -/
def assign (choices : List (DeclId × SymbolId)) : Chooser σ := fun decl old =>
  pure ((choices.lookup decl).getD old)

/-- The old symbol, or a new placeholder for it if the declaration is transformed. -/
def replace (old : SymbolId) (transformed : Bool) : Pass (SymbolTable × σ) SymbolId := do
  let (symbols, memory) ← get
  let (new, symbols) ← Pass.ofExcept .inTable (symbols.replacementFor old transformed)
  set (symbols, memory)
  pure new

/-- The listed declarations get placeholders. -/
def listed (decls : List DeclId) : Chooser σ := fun decl old =>
  replace old (decls.contains decl)

end Chooser

end Relabel
