import Relabel.Interner
import Relabel.Sort

namespace Relabel

/-- Where a function comes from: accessors remember their property, and functions taken from a compiled
container remember that container. -/
inductive Provenance where
  | plain
  | getter (property : Name)
  | setter (property : Name)
  | fromContainer (container : Name)
deriving DecidableEq, Repr

inductive Symbol.Kind where
  | cls
  | ctor
  | function (provenance : Provenance)
  | valueParam
  | receiverParam
  | typeParam
deriving DecidableEq, Repr

namespace Symbol.Kind

def sort : Symbol.Kind → DeclSort
  | cls => .cls
  | ctor => .ctor
  | function _ => .function
  | valueParam => .valueParam
  | receiverParam => .receiverParam
  | typeParam => .typeParam

/-- Functions are labelled by their provenance, everything else by its sort. -/
def label : Symbol.Kind → String
  | function (.getter _) => "property getter"
  | function (.setter _) => "property setter"
  | function (.fromContainer _) => "function with container source"
  | kind => kind.sort.label

/-- Classes only contain other declarations and never get a replacement symbol. -/
def replaceable (kind : Symbol.Kind) : Bool := kind != cls

theorem replaceable_eq_true_iff {kind : Symbol.Kind} :
    kind.replaceable = true ↔ kind.sort ≠ .cls := by
  cases kind <;> simp [replaceable, sort]

end Symbol.Kind

end Relabel
