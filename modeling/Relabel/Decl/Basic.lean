import Relabel.Decl.Modifiers
import Relabel.Sort
import Relabel.Syntax.Span
import Relabel.Symbol.Kind
import Relabel.Syntax.Body

namespace Relabel

/-- Who may use a declaration: everyone, its module, its class with those that inherit from it, or its
class alone. -/
inductive Visibility where
  | visible
  | internal
  | inherited
  | hidden
deriving DecidableEq, Repr

/-- What a declaration declares. Declarations inside it are listed by their position in the tree. -/
inductive DeclForm where
  | cls (name : Name) (typeParams : List DeclId) (thisReceiver : Option DeclId)
      (members : List DeclId)
  | ctor (typeParams params : List DeclId) (body : Option Body)
  | function (name : Name) (typeParams : List DeclId) (receiver : Option DeclId)
      (params : List DeclId) (result : Option TypeExpr) (body : Option Body)
  | valueParam (name : Name) (ty : TypeExpr) (default : Option Expr)
  | receiverParam (ty : TypeExpr)
  | typeParam (name : Name) (bounds : List TypeExpr)
deriving DecidableEq

namespace DeclForm

/-- A function signature without type parameters, receiver or body. -/
def signature (name : Name) (params : List DeclId) (result : Option TypeExpr) : DeclForm :=
  .function name [] none params result none

/-- A value parameter without a default. -/
def required (name : Name) (ty : TypeExpr) : DeclForm := .valueParam name ty none

def sort : DeclForm → DeclSort
  | .cls .. => .cls
  | .ctor .. => .ctor
  | .function .. => .function
  | .valueParam .. => .valueParam
  | .receiverParam .. => .receiverParam
  | .typeParam .. => .typeParam

def label (form : DeclForm) : String := form.sort.label

/-- Whether a symbol of the given kind may stand for such a declaration. -/
def admits (form : DeclForm) (kind : Symbol.Kind) : Bool := form.sort == kind.sort

/-- The declarations directly inside, in written order. -/
def children : DeclForm → List DeclId
  | .cls _ typeParams thisReceiver members => typeParams ++ thisReceiver.toList ++ members
  | .ctor typeParams params body => typeParams ++ params ++ Body.nested (body.getD [])
  | .function _ typeParams receiver params _ body =>
    typeParams ++ receiver.toList ++ params ++ Body.nested (body.getD [])
  | .valueParam _ _ default => Expr.nestedOption default
  | .receiverParam _ => []
  | .typeParam .. => []

/-- Functions and constructors decide for the parameters that they contain. -/
def isSignature : DeclForm → Bool
  | .ctor .. | .function .. => true
  | .cls .. | .valueParam .. | .receiverParam .. | .typeParam .. => false

theorem admits_eq_true_iff {form : DeclForm} {kind : Symbol.Kind} :
    form.admits kind = true ↔ form.sort = kind.sort := by
  simp [admits]

end DeclForm

/-- A declaration with the symbol that it owns and the declaration that contains it. -/
structure Decl where
  symbol : SymbolId
  form : DeclForm
  container : Option DeclId := none
  span : Span := .dummy
  visibility : Visibility := .visible
  modifiers : Modifiers := {}
  annotations : List Name := []
deriving DecidableEq

/-- New values for the attributes of a declaration; what is `none` stays. -/
structure DeclEdit where
  visibility : Option Visibility := none
  modifiers : Option Modifiers := none
  annotations : Option (List Name) := none
  span : Option Span := none
deriving DecidableEq, Repr

namespace Decl

def edit (decl : Decl) (change : DeclEdit) : Decl :=
  { decl with
    visibility := change.visibility.getD decl.visibility
    modifiers := change.modifiers.getD decl.modifiers
    annotations := change.annotations.getD decl.annotations
    span := change.span.getD decl.span }

def within (decl : Decl) (container : DeclId) : Decl := { decl with container := some container }

end Decl

end Relabel
