import Relabel.Binding
import Relabel.CompilationUnit
import Relabel.Copy.Selective

namespace Relabel

structure RelabelOptions where
  checkBindings : Bool := true
deriving DecidableEq, Repr

/-- A relabelled copy, in which every new placeholder stands for its declaration. -/
structure Relabelled where
  tree : DeclTree
  substitution : Substitution
  stats : BindingStats
deriving DecidableEq

/-- Copies a tree, binds the new placeholders to the copy, and checks if asked to that no declaration
of the copy is left without a binding. -/
def DeclTree.relabel (tree : DeclTree) (predicate : TypePredicate) (options : RelabelOptions) :
    Pass RelabelState Relabelled := do
  let copy ← tree.copy predicate
  let stats ← Pass.within (·.symbols) (fun symbols state => { state with symbols })
    copy.tree.bindPlaceholders
  if options.checkBindings then
    Pass.ofResult (copy.tree.checkBound (← get).symbols)
  pure ⟨copy.tree, copy.substitution, stats⟩

/-- What became of a compilation unit, and the types that the predicate was asked about, newest
first. -/
structure UnitReport where
  unit : CompilationUnit
  result : Except PassError (Substitution × BindingStats)
  consulted : List TypeExpr

namespace CompilationUnit

/-- Puts the relabelled copy in place of the tree. After a failure the old tree stays. -/
def relabel (unit : CompilationUnit) (predicate : TypePredicate) (options : RelabelOptions) :
    UnitReport :=
  match (unit.tree.relabel predicate options).run ⟨unit.symbols, []⟩ with
  | .ok out state => ⟨⟨state.symbols, out.tree⟩, .ok (out.substitution, out.stats), state.consulted⟩
  | .error error state => ⟨⟨state.symbols, unit.tree⟩, .error error, state.consulted⟩

/-- Relabels units that share nothing, each on its own. -/
def relabelAll (units : List CompilationUnit) (predicate : TypePredicate)
    (options : RelabelOptions) : List UnitReport :=
  units.map fun unit => unit.relabel predicate options

end CompilationUnit

end Relabel
