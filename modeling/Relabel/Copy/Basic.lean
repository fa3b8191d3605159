import Relabel.Decl.Traverse
import Relabel.Substitution
import Relabel.Tree.Owners

namespace Relabel

variable {σ : Type}

/-- Chooses the symbol of the copy of a declaration, given the symbol that the declaration owns. It
may allocate symbols, and `σ` is what it remembers between its choices. -/
abbrev Chooser (σ : Type) := DeclId → SymbolId → Pass (SymbolTable × σ) SymbolId

/-- What a copy works on: the symbols, the chooser's memory, and the choices that were asked for,
newest first. -/
structure CopyState (σ : Type) where
  symbols : SymbolTable
  memory : σ
  asked : List (DeclId × SymbolId) := []

/-- Takes the number for the copy. -/
def CopyState.takeTree : Pass (CopyState σ) TreeId :=
  modifyGet fun state =>
    let (id, symbols) := state.symbols.takeTree
    (id, { state with symbols })

structure Copy where
  tree : DeclTree
  substitution : Substitution
deriving DecidableEq

/-- Puts a choice to the chooser and notes it down. -/
def Chooser.ask (choose : Chooser σ) (decl : DeclId) (old : SymbolId) :
    Pass (CopyState σ) SymbolId := do
  modify fun state => { state with asked := (decl, old) :: state.asked }
  Pass.within (fun state => (state.symbols, state.memory))
    (fun (symbols, memory) state => { state with symbols, memory }) (choose decl old)

/-- The state of a copy with the symbols settled so far. -/
structure Settling (σ : Type) where
  state : CopyState σ
  settled : Substitution := {}

/-- Notes down what takes the place of a symbol. -/
def Settling.record (old new : SymbolId) : Pass (Settling σ) Unit :=
  modify fun settling => { settling with settled := settling.settled.record old new }

/-- Settled symbols with the part of the copy that is built. -/
structure Copying (σ : Type) where
  settling : Settling σ
  out : DeclTree

namespace Copying

def start (id : TreeId) (state : CopyState σ) : Copying σ := ⟨{ state }, { id }⟩

def settle {α : Type} (pass : Pass (Settling σ) α) : Pass (Copying σ) α :=
  Pass.within (·.settling) (fun settling copying => { copying with settling }) pass

def add (decl : Decl) : Pass (Copying σ) DeclId :=
  modifyGet fun copying =>
    let (id, out) := copying.out.add decl
    (id, { copying with out })

def addRoot (id : DeclId) : Pass (Copying σ) Unit :=
  modify fun copying => { copying with out := copying.out.addRoot id }

end Copying

/-- Copies what is under the roots of `tree`, where `declared` lists the symbols declared there. -/
structure Copier (σ : Type) where
  tree : DeclTree
  choose : Chooser σ
  declared : List (SymbolId × DeclId)

namespace Copier

/-- The symbol that the copy of a declaration owns. It is chosen once. -/
def ownerSymbol (copier : Copier σ) (id : DeclId) : Pass (Settling σ) SymbolId := do
  let decl ← Pass.decl copier.tree id
  match (← get).settled.get? decl.symbol with
  | some new => pure new
  | none =>
    let new ← Pass.within (·.state) (fun state settling => { settling with state })
      (copier.choose.ask id decl.symbol)
    Settling.record decl.symbol new
    pure new

/-- The symbol that takes the place of a mentioned one: that of the copy of its declaration, which may
not be copied yet. A symbol that is not declared under the roots stays. -/
def mentionedSymbol (copier : Copier σ) (symbol : SymbolId) : Pass (Settling σ) SymbolId := do
  match (← get).settled.get? symbol with
  | some new => pure new
  | none =>
    match copier.declared.lookup symbol with
    | some id => copier.ownerSymbol id
    | none =>
      Settling.record symbol symbol
      pure symbol

/-- Copies a declaration after those inside it. A declaration that contains itself has no copy. -/
def copyDecl (copier : Copier σ) : (depth : Nat) → DeclId → Pass (Copying σ) DeclId
  | 0, id => throw (.inTree (.endless copier.tree.id id))
  | depth + 1, id => do
    let decl ← Pass.decl copier.tree id
    let symbol ← Copying.settle (copier.ownerSymbol id)
    let form ← decl.form.traverse (fun symbol => Copying.settle (copier.mentionedSymbol symbol))
      (copier.copyDecl depth)
    Copying.add { decl with symbol, form, container := none }

def copyRoot (copier : Copier σ) (root : DeclId) : Pass (Copying σ) Unit := do
  let id ← copier.copyDecl copier.tree.maxDepth root
  Copying.addRoot id

def copyRoots (copier : Copier σ) : Pass (Copying σ) Copy := do
  copier.tree.roots.forM copier.copyRoot
  let copying ← get
  pure ⟨copying.out, copying.settling.settled⟩

end Copier

/-- Copies what is under the roots. Every symbol in use is settled once, where it first occurs, so that
a declaration and all its mentions agree. A tree that declares a symbol twice or refers to an unknown
declaration is refused before anything is allocated. -/
def DeclTree.copyWith (tree : DeclTree) (choose : Chooser σ) : Pass (CopyState σ) Copy := do
  let declared ← Pass.ofResult tree.declared
  let id ← CopyState.takeTree
  Pass.within (Copying.start id) (fun copying _ => copying.settling.state)
    (Copier.mk tree choose declared).copyRoots

end Relabel
