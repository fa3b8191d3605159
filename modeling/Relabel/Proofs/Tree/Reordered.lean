import Relabel.Proofs.Tree.Nesting

namespace Relabel.DeclTree

/-- The other tree has the same number and the same declarations, and its roots in some order. -/
structure Reordered (tree other : DeclTree) : Prop where
  id : other.id = tree.id
  decls : other.decls = tree.decls
  roots : tree.roots.Perm other.roots

namespace Reordered

variable {tree other : DeclTree}

theorem symm (reordered : tree.Reordered other) : other.Reordered tree :=
  ⟨reordered.id.symm, reordered.decls.symm, reordered.roots.symm⟩

theorem get? (reordered : tree.Reordered other) (id : DeclId) : other.get? id = tree.get? id := by
  rw [DeclTree.get?, DeclTree.get?, reordered.decls]

theorem maxDepth (reordered : tree.Reordered other) : other.maxDepth = tree.maxDepth := by
  rw [DeclTree.maxDepth, DeclTree.maxDepth, size, size, reordered.decls]

theorem reachable (reordered : tree.Reordered other) {id : DeclId} (reached : tree.Reachable id) :
    other.Reachable id := by
  induction reached with
  | root listed => exact .root (reordered.roots.mem_iff.1 listed)
  | child reached found listed ih => exact ih.child ((reordered.get? _).trans found) listed

theorem reachable_iff (reordered : tree.Reordered other) {id : DeclId} :
    other.Reachable id ↔ tree.Reachable id :=
  ⟨reordered.symm.reachable, reordered.reachable⟩

theorem preorderFrom (reordered : tree.Reordered other) (depth : Nat) (id : DeclId) :
    other.preorderFrom depth id = tree.preorderFrom depth id := by
  induction depth generalizing id with
  | zero => rfl
  | succ depth ih =>
    rw [DeclTree.preorderFrom, DeclTree.preorderFrom, reordered.get?, funext ih]

/-- A walk meets the same declarations, those under each root together. -/
theorem preorder (reordered : tree.Reordered other) : tree.preorder.Perm other.preorder := by
  have below : other.preorderFrom other.maxDepth = tree.preorderFrom tree.maxDepth := by
    rw [reordered.maxDepth]
    exact funext (reordered.preorderFrom tree.maxDepth)
  rw [DeclTree.preorder, DeclTree.preorder, below]
  exact reordered.roots.flatMap_right _

theorem exists_declared (reordered : tree.Reordered other)
    (done : ∃ owners, tree.declared = .ok owners) : ∃ owners, other.declared = .ok owners := by
  obtain ⟨closed, distinct⟩ := exists_declared_iff.1 done
  refine exists_declared_iff.2 ⟨fun id reached => ?_, ?_⟩
  · obtain ⟨decl, found⟩ := closed id (reordered.reachable_iff.1 reached)
    exact ⟨decl, (reordered.get? id).trans found⟩
  · have owned : other.owned = tree.owned := by
      funext ids
      rw [DeclTree.owned, DeclTree.owned, funext reordered.get?]
    have permuted := (reordered.preorder.filterMap fun id =>
      (tree.get? id).map fun decl => (decl.symbol, id)).map Prod.fst
    rw [owned]
    exact permuted.nodup_iff.1 distinct

end Reordered

end Relabel.DeclTree
