import Relabel.Copy.Chooser
import Relabel.Judge

namespace Relabel

/-- The transformed declarations get placeholders. -/
def Chooser.selective (judge : Judge) : Chooser Judge.Memory := fun decl old => do
  let (symbols, _) ← get
  let transformed ← Pass.within (·.2) (fun memory (symbols, _) => (symbols, memory))
    (judge.verdict symbols decl)
  replace old transformed

/-- What relabelling works on: the symbols, and the types that the predicate was asked about, newest
first. -/
structure RelabelState where
  symbols : SymbolTable
  consulted : List TypeExpr := []
deriving DecidableEq

/-- Copies a tree with new placeholders for exactly the transformed declarations. -/
def DeclTree.copy (tree : DeclTree) (predicate : TypePredicate) : Pass RelabelState Copy :=
  Pass.within (fun state => { symbols := state.symbols, memory := { consulted := state.consulted } })
    (fun after _ => ⟨after.symbols, after.memory.consulted⟩)
    (tree.copyWith (.selective ⟨tree, predicate⟩))

end Relabel
