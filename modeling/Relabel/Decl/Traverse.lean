import Relabel.Decl.Basic
import Relabel.Syntax.Traverse

namespace Relabel.DeclForm

variable {m : Type → Type} [Monad m]

/-- Rebuilds what a declaration declares, with `f` applied to each symbol mentioned and `g` to each
declaration held in it, in written order. -/
def traverse (f : SymbolId → m SymbolId) (g : DeclId → m DeclId) : DeclForm → m DeclForm
  | .cls name typeParams thisReceiver members => do
    let typeParams ← typeParams.mapM g
    let thisReceiver ← thisReceiver.mapM g
    let members ← members.mapM g
    pure (.cls name typeParams thisReceiver members)
  | .ctor typeParams params body => do
    let typeParams ← typeParams.mapM g
    let params ← params.mapM g
    let body ← body.mapM (Body.traverse f g)
    pure (.ctor typeParams params body)
  | .function name typeParams receiver params result body => do
    let typeParams ← typeParams.mapM g
    let receiver ← receiver.mapM g
    let params ← params.mapM g
    let result ← result.mapM (TypeExpr.traverse f)
    let body ← body.mapM (Body.traverse f g)
    pure (.function name typeParams receiver params result body)
  | .valueParam name ty default => do
    let ty ← ty.traverse f
    let default ← Expr.traverseOption f g default
    pure (.valueParam name ty default)
  | .receiverParam ty => do pure (.receiverParam (← ty.traverse f))
  | .typeParam name bounds => do pure (.typeParam name (← TypeExpr.traverseList f bounds))

end Relabel.DeclForm
