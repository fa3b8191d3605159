import Relabel.Decl.Basic
import Relabel.Symbol.Table

namespace Relabel

inductive DeclTree.Error where
  | unknownDecl (tree : TreeId) (decl : DeclId)
  | endless (tree : TreeId) (decl : DeclId)
deriving DecidableEq, Repr

def DeclTree.Error.message : DeclTree.Error → String
  | unknownDecl tree decl => s!"{decl.label} is not a declaration of tree {tree.label}"
  | endless tree decl => s!"{decl.label} of tree {tree.label} contains itself"

/-- An arena of declarations with its roots. Roots and children may name declarations that are not in
the arena. -/
structure DeclTree where
  id : TreeId
  decls : Array Decl := #[]
  roots : List DeclId := []
deriving DecidableEq

namespace DeclTree

def size (tree : DeclTree) : Nat := tree.decls.size

def get? (tree : DeclTree) (id : DeclId) : Option Decl := tree.decls[id.index]?

protected def get (tree : DeclTree) (id : DeclId) : Except Error Decl :=
  match tree.get? id with
  | some decl => .ok decl
  | none => .error (.unknownDecl tree.id id)

/-- The declaration that contains `id`. -/
def container? (tree : DeclTree) (id : DeclId) : Option Decl :=
  (tree.get? id).bind fun decl => decl.container.bind tree.get?

def contain (decls : Array Decl) (container child : DeclId) : Array Decl :=
  decls.modify child.index (·.within container)

/-- Adds a declaration and makes it the container of its children. Only children that are in the tree
already are contained in it. -/
def add (tree : DeclTree) (decl : Decl) : DeclId × DeclTree :=
  let id : DeclId := ⟨tree.size⟩
  (id, { tree with decls := (decl.form.children.foldl (contain · id) tree.decls).push decl })

def addRoot (tree : DeclTree) (id : DeclId) : DeclTree := { tree with roots := tree.roots ++ [id] }

/-- Changes the attributes of a declaration, if the tree has it. -/
def edit? (tree : DeclTree) (id : DeclId) (change : DeclEdit) : Option DeclTree :=
  (tree.get? id).map fun decl =>
    { tree with decls := tree.decls.setIfInBounds id.index (decl.edit change) }

/-- The symbols that the declarations own, in the order of the declarations. -/
def owners (tree : DeclTree) : List (DeclId × SymbolId) :=
  tree.decls.toList.zipIdx.map fun (decl, index) => (⟨index⟩, decl.symbol)

theorem get_eq_ok_iff {tree : DeclTree} {id : DeclId} {decl : Decl} :
    tree.get id = .ok decl ↔ tree.get? id = some decl := by
  unfold DeclTree.get
  split <;> simp_all

theorem get?_isSome_iff (tree : DeclTree) (id : DeclId) :
    (tree.get? id).isSome ↔ id.index < tree.size := by
  simp [get?, size]

theorem lt_size_of_get? {tree : DeclTree} {id : DeclId} {decl : Decl}
    (found : tree.get? id = some decl) : id.index < tree.size := by
  rw [← get?_isSome_iff, found]
  rfl

theorem size_contain (decls : Array Decl) (container child : DeclId) :
    (contain decls container child).size = decls.size := by
  simp [contain]

theorem size_foldl_contain (decls : Array Decl) (container : DeclId) (children : List DeclId) :
    (children.foldl (contain · container) decls).size = decls.size := by
  induction children generalizing decls with
  | nil => rfl
  | cons child children ih => rw [List.foldl_cons, ih, size_contain]

theorem size_add (tree : DeclTree) (decl : Decl) : (tree.add decl).2.size = tree.size + 1 := by
  simp [add, size, size_foldl_contain]

theorem getElem?_foldl_contain (decls : Array Decl) (container : DeclId) (children : List DeclId)
    (index : Nat) : (children.foldl (contain · container) decls)[index]? =
      if ⟨index⟩ ∈ children then decls[index]?.map (·.within container) else decls[index]? := by
  induction children generalizing decls with
  | nil => simp
  | cons child children ih =>
    cases child with | mk child => ?_
    rw [List.foldl_cons, ih]
    by_cases same : child = index
    · subst same
      cases found : decls[child]? <;> simp [contain, Array.getElem?_modify, found, Decl.within]
    · have other : index ≠ child := fun h => same h.symm
      simp [contain, Array.getElem?_modify, same, other]

theorem get?_add (tree : DeclTree) (decl : Decl) (id : DeclId) :
    (tree.add decl).2.get? id =
      if id = ⟨tree.size⟩ then some decl
      else if id ∈ decl.form.children then (tree.get? id).map (·.within ⟨tree.size⟩)
      else tree.get? id := by
  cases id
  simp [add, get?, size, Array.getElem?_push, size_foldl_contain, getElem?_foldl_contain]

end DeclTree

end Relabel
