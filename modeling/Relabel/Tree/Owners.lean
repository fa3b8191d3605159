import Relabel.Tree.Walk

namespace Relabel.DeclTree

/-- Notes which declaration owns a symbol. No symbol may be owned twice. -/
def noteOwner (tree : DeclTree) (id : DeclId) : Pass (List (SymbolId × DeclId)) Unit := do
  let decl ← Pass.decl tree id
  match (← get).lookup decl.symbol with
  | some first => throw (.declaredTwice decl.symbol first id)
  | none => modify ((decl.symbol, id) :: ·)

/-- The symbols declared under the roots with their declarations, newest first. -/
def declared (tree : DeclTree) : Except PassError (List (SymbolId × DeclId)) :=
  match (tree.walkAll tree.noteOwner).run [] with
  | .ok _ owners => .ok owners
  | .error error _ => .error error

end Relabel.DeclTree
