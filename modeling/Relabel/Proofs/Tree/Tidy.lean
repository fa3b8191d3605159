import Relabel.Proofs.Binding
import Relabel.Proofs.Tree.Fault

namespace Relabel.DeclTree

variable {tree : DeclTree}

/-- As long as a walk from the roots stays in the tree, it enters nothing twice, and no symbol is owned
by two declarations under the roots. -/
structure Tidy (tree : DeclTree) : Prop where
  once : ∀ met left, tree.Walks tree.roots met left →
    (∀ id ∈ met, ∃ decl, tree.get? id = some decl) → met.Nodup
  apart : ∀ first second decl other, tree.Reachable first → tree.Reachable second →
    tree.get? first = some decl → tree.get? second = some other → decl.symbol = other.symbol →
    first = second

theorem Walks.reachable {pending met left : List DeclId} (walks : tree.Walks pending met left)
    (reached : ∀ id ∈ pending, tree.Reachable id) : ∀ id ∈ met, tree.Reachable id := by
  induction walks with
  | stop pending => simp
  | @visit id rest met left _ ih =>
    obtain ⟨here, others⟩ := List.forall_mem_cons.1 reached
    refine List.forall_mem_cons.2 ⟨here, ih fun other inside => ?_⟩
    rcases List.mem_append.1 inside with child | waiting
    · cases found : tree.get? id with
      | none =>
        rw [childrenOf, found] at child
        cases child
      | some decl =>
        rw [childrenOf_of_get? found] at child
        exact here.child found child
    · exact others other waiting

namespace Tidy

variable (tidy : tree.Tidy) (closed : tree.Closed)

include tidy closed

theorem faultless : tree.Faultless := by
  intro met left walks
  have reached := walks.reachable fun id listed => .root listed
  have known : ∀ id ∈ met, ∃ decl, tree.get? id = some decl := fun id inside =>
    closed id (reached id inside)
  refine ⟨known, nodup_owned (tidy.once met left walks known) ?_⟩
  intro first inside second insideSecond decl other
  exact tidy.apart first second decl other (reached first inside) (reached second insideSecond)

theorem exists_declared : ∃ owners, tree.declared = .ok owners :=
  exists_declared_iff_faultless.2 (tidy.faultless closed)

theorem nodup : tree.preorder.Nodup := by
  have distinct := (exists_declared_iff.1 (tidy.exists_declared closed)).2
  exact nodup_of_owned (fun id inside => closed id (reachable_of_mem_preorder inside)) distinct

theorem fits : ∀ root ∈ tree.roots, tree.Fits tree.maxDepth root :=
  fits_of_nodup_preorder closed (tidy.nodup closed)

omit closed in
theorem ownsApart : tree.OwnsApart tree.preorder := by
  intro first inside second insideSecond decl other
  exact tidy.apart first second decl other (reachable_of_mem_preorder inside)
    (reachable_of_mem_preorder insideSecond)

end Tidy

/-- Nothing is wrong with the index of a tree iff it is tidy and its walk stays in it. -/
theorem exists_declared_iff_tidy :
    (∃ owners, tree.declared = .ok owners) ↔ tree.Closed ∧ tree.Tidy := by
  constructor
  · intro done
    refine ⟨(exists_declared_iff.1 done).1, ?_, ?_⟩
    · intro met left walks _
      have sound := exists_declared_iff_faultless.1 done met left walks
      exact nodup_of_owned sound.known sound.distinct
    · obtain ⟨owners, declared⟩ := done
      intro first second decl other reached reachedSecond found foundSecond same
      exact (indexed_of_declared declared).owner_unique reached reachedSecond found foundSecond same
  · intro both
    exact both.2.exists_declared both.1

end Relabel.DeclTree
