import Relabel.Pass

namespace Relabel.DeclTree

variable {σ : Type}

/-- More than the length of any path of declarations, each inside the one before it, that repeats none
and may end at one that is not in the tree. -/
def maxDepth (tree : DeclTree) : Nat := tree.size + 1

/-- Visits a declaration, then those inside it, if its form is to be entered. A walk that goes too deep
would never end. -/
def walkFrom (tree : DeclTree) (entered : DeclForm → Bool) (visit : DeclId → Pass σ Unit) :
    (depth : Nat) → DeclId → Pass σ Unit
  | 0, id => throw (.inTree (.endless tree.id id))
  | depth + 1, id => do
    visit id
    let decl ← Pass.decl tree id
    if entered decl.form then decl.form.children.forM (tree.walkFrom entered visit depth)

/-- Visits everything under the roots. -/
def walk (tree : DeclTree) (entered : DeclForm → Bool) (visit : DeclId → Pass σ Unit) :
    Pass σ Unit :=
  tree.roots.forM (tree.walkFrom entered visit tree.maxDepth)

/-- Visits everything inside a declaration. -/
def walkInside (tree : DeclTree) (entered : DeclForm → Bool) (visit : DeclId → Pass σ Unit)
    (id : DeclId) : Pass σ Unit := do
  let decl ← Pass.decl tree id
  decl.form.children.forM (tree.walkFrom entered visit tree.maxDepth)

/-- Visits everything under the roots, of whatever form. -/
def walkAll (tree : DeclTree) (visit : DeclId → Pass σ Unit) : Pass σ Unit :=
  tree.walk (fun _ => true) visit

end Relabel.DeclTree
