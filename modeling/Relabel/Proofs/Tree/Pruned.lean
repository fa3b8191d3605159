import Mathlib.Data.List.Flatten
import Relabel.Proofs.Tree.Owners

namespace Relabel

/-- The declaration with nothing inside, unless its form is to be entered. -/
def Decl.pruned (decl : Decl) (entered : DeclForm → Bool) : Decl :=
  if entered decl.form then decl else { decl with form := .typeParam .empty [] }

theorem Decl.children_pruned (decl : Decl) (entered : DeclForm → Bool) :
    (decl.pruned entered).form.children =
      if entered decl.form then decl.form.children else [] := by
  unfold pruned
  split <;> rfl

namespace DeclTree

variable {σ : Type} {tree : DeclTree} {entered : DeclForm → Bool}

/-- The tree with nothing inside those declarations that are not to be entered. -/
def pruned (tree : DeclTree) (entered : DeclForm → Bool) : DeclTree :=
  { tree with decls := tree.decls.map (·.pruned entered) }

theorem get?_pruned (tree : DeclTree) (entered : DeclForm → Bool) (id : DeclId) :
    (tree.pruned entered).get? id = (tree.get? id).map (·.pruned entered) :=
  Array.getElem?_map

theorem maxDepth_pruned (tree : DeclTree) (entered : DeclForm → Bool) :
    (tree.pruned entered).maxDepth = tree.maxDepth := by
  simp [maxDepth, size, pruned]

theorem walkFrom_eq_pruned (tree : DeclTree) (entered : DeclForm → Bool)
    (visit : DeclId → Pass σ Unit) (depth : Nat) : tree.walkFrom entered visit depth =
      (tree.pruned entered).walkFrom (fun _ => true) visit depth := by
  induction depth with
  | zero => rfl
  | succ depth ih =>
    funext id
    rw [walkFrom, walkFrom, ← ih]
    congr 1
    funext _
    cases found : tree.get? id with
    | none =>
      have foundPruned := tree.get?_pruned entered id
      rw [found, Option.map_none] at foundPruned
      simp only [Pass.decl, DeclTree.get, found, foundPruned]
      rfl
    | some decl =>
      have foundPruned := tree.get?_pruned entered id
      rw [found, Option.map_some] at foundPruned
      rw [Pass.decl_eq_pure found, Pass.decl_eq_pure foundPruned, pure_bind, pure_bind, if_pos rfl,
        decl.children_pruned]
      split <;> rfl

/-- A walk that enters only some declarations is one through the tree without what is inside the
others. -/
theorem walk_eq_walkAll_pruned (tree : DeclTree) (entered : DeclForm → Bool)
    (visit : DeclId → Pass σ Unit) :
    tree.walk entered visit = (tree.pruned entered).walkAll visit := by
  rw [walk, walkFrom_eq_pruned, ← maxDepth_pruned tree entered]
  rfl

/-- What is inside a declaration is walked as what is under the roots would be. -/
theorem walkInside_eq_walk {id : DeclId} {decl : Decl} (found : tree.get? id = some decl)
    (entered : DeclForm → Bool) (visit : DeclId → Pass σ Unit) : tree.walkInside entered visit id =
      { tree with roots := decl.form.children }.walk entered visit := by
  have same (depth : Nat) : tree.walkFrom entered visit depth =
      { tree with roots := decl.form.children }.walkFrom entered visit depth := by
    induction depth with
    | zero => rfl
    | succ depth ih =>
      funext id
      rw [walkFrom, walkFrom, ih]
      rfl
  rw [walkInside, Pass.decl_eq_pure found, pure_bind, same]
  rfl

theorem reachable_of_pruned {id : DeclId} (reached : (tree.pruned entered).Reachable id) :
    tree.Reachable id := by
  induction reached with
  | root listed => exact .root listed
  | child _ foundPruned listed ih =>
    rw [get?_pruned] at foundPruned
    obtain ⟨decl, found, rfl⟩ := Option.map_eq_some_iff.1 foundPruned
    rw [decl.children_pruned] at listed
    split at listed
    · exact ih.child found listed
    · exact nomatch listed

theorem preorderFrom_pruned_sublist (tree : DeclTree) (entered : DeclForm → Bool) (depth : Nat)
    (id : DeclId) :
    ((tree.pruned entered).preorderFrom depth id).Sublist (tree.preorderFrom depth id) := by
  induction depth generalizing id with
  | zero => exact .refl _
  | succ depth ih =>
    cases found : tree.get? id with
    | none =>
      have foundPruned := tree.get?_pruned entered id
      rw [found, Option.map_none] at foundPruned
      rw [preorderFrom, preorderFrom, found, foundPruned]
    | some decl =>
      have foundPruned := tree.get?_pruned entered id
      rw [found, Option.map_some] at foundPruned
      rw [preorderFrom_of_get? found, preorderFrom_of_get? foundPruned, decl.children_pruned]
      refine List.Sublist.cons_cons id ?_
      split
      · exact List.Sublist.flatMap_right _ fun child _ => ih child
      · exact List.nil_sublist _

/-- Such a walk meets what a full walk meets, in the same order, with some left out. -/
theorem preorder_pruned_sublist (tree : DeclTree) (entered : DeclForm → Bool) :
    (tree.pruned entered).preorder.Sublist tree.preorder := by
  rw [preorder, preorder, maxDepth_pruned]
  exact List.Sublist.flatMap_right _ fun root _ => tree.preorderFrom_pruned_sublist entered _ root

theorem Fits.pruned {depth : Nat} {id : DeclId} (fits : tree.Fits depth id)
    (entered : DeclForm → Bool) : (tree.pruned entered).Fits depth id := by
  induction depth generalizing id with
  | zero => exact fits.elim
  | succ depth ih =>
    obtain ⟨decl, found, below⟩ := fits
    refine ⟨decl.pruned entered, ?_, fun child listed => ?_⟩
    · rw [get?_pruned, found, Option.map_some]
    · rw [decl.children_pruned] at listed
      split at listed
      · exact ih (below child listed)
      · exact nomatch listed

/-- Where all is in the tree, a walk visits what it comes to and does nothing else. -/
theorem walk_of_fits (fits : ∀ root ∈ tree.roots, tree.Fits tree.maxDepth root)
    (entered : DeclForm → Bool) (visit : DeclId → Pass σ Unit) :
    tree.walk entered visit = (tree.pruned entered).preorder.forM visit := by
  rw [walk_eq_walkAll_pruned, walkAll_of_fits]
  intro root listed
  rw [maxDepth_pruned]
  exact (fits root listed).pruned entered

end DeclTree

end Relabel
