namespace Relabel

/-- A symbol's position in its symbol table. -/
structure SymbolId where
  index : Nat
deriving DecidableEq, Repr

/-- A declaration's position in its tree. -/
structure DeclId where
  index : Nat
deriving DecidableEq, Repr

/-- The number of a declaration tree among the trees of one symbol table. -/
structure TreeId where
  index : Nat
deriving DecidableEq, Repr

/-- A declaration of a particular tree: what a bound symbol stands for. -/
structure DeclSite where
  tree : TreeId
  decl : DeclId
deriving DecidableEq, Repr

def SymbolId.label (id : SymbolId) : String := s!"SymbolId({id.index})"

def DeclId.label (id : DeclId) : String := s!"DeclId({id.index})"

def TreeId.label (id : TreeId) : String := s!"TreeId({id.index})"

end Relabel
