import Relabel.Predicate.Basic

namespace Relabel

/-- Tells which declarations of a tree are transformed: those with an annotated type in their
signature, and those whose symbol is a placeholder already. -/
structure Judge where
  tree : DeclTree
  predicate : TypePredicate

namespace Judge

/-- The verdicts given so far and the types that the predicate was asked about, each newest first. -/
structure Memory where
  verdicts : List (DeclId × Bool) := []
  consulted : List TypeExpr := []
deriving DecidableEq

/-- Repeats an earlier verdict where there is one. A failure is not remembered. -/
def memoized (id : DeclId) (assess : Pass Memory Bool) : Pass Memory Bool := do
  match (← get).verdicts.lookup id with
  | some verdict => pure verdict
  | none =>
    let verdict ← assess
    modify fun memory => { memory with verdicts := (id, verdict) :: memory.verdicts }
    pure verdict

/-- Whether a type in the signature of `owner` is annotated. -/
def annotated (judge : Judge) (owner : DeclId) (ty : TypeExpr) : Pass Memory Bool := do
  modify fun memory =>
    { memory with consulted := (judge.predicate.consulted ty).reverse ++ memory.consulted }
  Pass.ofExcept (.predicate owner) (judge.predicate.reaches ty)

/-- Whether the type of one of the value parameters is annotated. -/
def paramAnnotated (judge : Judge) (owner : DeclId) (params : List DeclId) : Pass Memory Bool :=
  params.anyM fun param => do
    match (← Pass.decl judge.tree param).form with
    | .valueParam _ ty _ => judge.annotated owner ty
    | _ => pure false

/-- A missing result type is not annotated. -/
def resultAnnotated (judge : Judge) (owner : DeclId) : Option TypeExpr → Pass Memory Bool
  | some ty => judge.annotated owner ty
  | none => pure false

/-- Whether the function or constructor around a parameter is transformed, as `outer` tells. -/
def containerTransformed (judge : Judge) (outer : DeclId → Pass Memory Bool) (decl : Decl) :
    Pass Memory Bool := do
  match decl.container with
  | none => pure false
  | some container =>
    if (← Pass.decl judge.tree container).form.isSignature then outer container else pure false

/-- Judges a declaration anew. Parameters follow the signature that they belong to, and signatures
follow nothing but their own types. -/
def assess (judge : Judge) (symbols : SymbolTable) (outer : DeclId → Pass Memory Bool)
    (id : DeclId) : Pass Memory Bool := do
  let decl ← Pass.decl judge.tree id
  let symbol ← Pass.symbol symbols decl.symbol
  match decl.form with
  | .cls .. => pure false
  | .ctor _ params _ => pure symbol.isPlaceholder <||> judge.paramAnnotated id params
  | .function _ _ _ params result _ =>
    pure symbol.isPlaceholder <||> judge.paramAnnotated id params <||>
      judge.resultAnnotated id result
  | .valueParam _ ty _ | .receiverParam ty =>
    pure symbol.isPlaceholder <||> judge.annotated id ty <||> judge.containerTransformed outer decl
  | .typeParam .. => pure symbol.isPlaceholder <||> judge.containerTransformed outer decl

/-- The verdict on a function or constructor, which depends on no other. -/
def signatureVerdict (judge : Judge) (symbols : SymbolTable) (id : DeclId) : Pass Memory Bool :=
  memoized id (judge.assess symbols (fun _ => pure false) id)

/-- Whether a declaration is transformed. -/
def verdict (judge : Judge) (symbols : SymbolTable) (id : DeclId) : Pass Memory Bool :=
  memoized id (judge.assess symbols (judge.signatureVerdict symbols) id)

end Judge

end Relabel
