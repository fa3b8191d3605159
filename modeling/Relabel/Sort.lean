namespace Relabel

/-- The six sorts of things a symbol can stand for and a tree can declare. -/
inductive DeclSort where
  | cls
  | ctor
  | function
  | valueParam
  | receiverParam
  | typeParam
deriving DecidableEq, Repr

def DeclSort.label : DeclSort → String
  | .cls => "class"
  | .ctor => "constructor"
  | .function => "function"
  | .valueParam => "value parameter"
  | .receiverParam => "receiver parameter"
  | .typeParam => "type parameter"

end Relabel
