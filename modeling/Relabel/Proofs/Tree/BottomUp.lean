import Relabel.Proofs.Tree.Straight

namespace Relabel.DeclTree

/-- Declarations list earlier ones only. -/
def BottomUp (tree : DeclTree) : Prop :=
  ∀ id decl, tree.get? id = some decl → ∀ child ∈ decl.form.children, child.index < id.index

variable {tree : DeclTree} {pending met left : List DeclId}

instance (tree : DeclTree) : Decidable tree.BottomUp :=
  decidable_of_iff (∀ index : Fin tree.size, ∀ decl ∈ tree.get? ⟨index⟩,
    ∀ child ∈ decl.form.children, child.index < index.val) <| by
      constructor
      · intro each id decl found
        exact each ⟨id.index, lt_size_of_get? found⟩ decl found
      · intro bottomUp index decl found
        exact bottomUp ⟨index⟩ decl found

theorem mem_childrenOf_iff {parent child : DeclId} : child ∈ tree.childrenOf parent ↔
    ∃ decl, tree.get? parent = some decl ∧ child ∈ decl.form.children := by
  unfold childrenOf
  cases tree.get? parent <;> simp

namespace Walks

/-- What passes from declarations to those inside them holds of all that a walk comes to. -/
theorem holds (walks : tree.Walks pending met left) (holds : DeclId → Prop)
    (below : ∀ id, holds id → ∀ child ∈ tree.childrenOf id, holds child)
    (start : ∀ id ∈ pending, holds id) : ∀ id ∈ met ++ left, holds id := by
  induction walks with
  | stop pending => exact start
  | @visit id rest met left _ ih =>
    have here : holds id := start id List.mem_cons_self
    have later : ∀ other ∈ rest, holds other := fun other inside =>
      start other (List.mem_cons_of_mem id inside)
    have next := ih (List.forall_mem_append.2 ⟨below id here, later⟩)
    exact List.forall_mem_cons.2 ⟨here, next⟩

/-- A walk loses nothing of what it has to visit. -/
theorem pending_subset (walks : tree.Walks pending met left) : pending ⊆ met ++ left := by
  induction walks with
  | stop pending => simp
  | @visit id rest met left _ ih =>
    have later : rest ⊆ met ++ left := fun other inside => ih (List.mem_append_right _ inside)
    simpa using List.Subset.trans later (List.subset_cons_self id _)

/-- What is inside a visited declaration is visited or still to be visited. -/
theorem childrenOf_subset {id : DeclId} (walks : tree.Walks pending met left) (inside : id ∈ met) :
    tree.childrenOf id ⊆ met ++ left := by
  induction walks with
  | stop pending => simp at inside
  | @visit first rest met left next ih =>
    have grows : met ++ left ⊆ first :: met ++ left := by simp
    rcases List.mem_cons.1 inside with rfl | later
    · have listed : tree.childrenOf id ⊆ tree.childrenOf id ++ rest := by simp
      exact List.Subset.trans (List.Subset.trans listed next.pending_subset) grows
    · exact List.Subset.trans (ih later) grows

/-- A walk from the roots that comes to its end has visited all that is under them. -/
theorem mem_iff_reachable (walks : tree.Walks tree.roots met []) (id : DeclId) :
    id ∈ met ↔ tree.Reachable id := by
  constructor
  · intro inside
    have all := walks.holds tree.Reachable ?_ fun root top => .root top
    · apply all
      simpa using inside
    · intro parent reached child listed
      obtain ⟨decl, found, listed⟩ := mem_childrenOf_iff.1 listed
      exact reached.child found listed
  · intro reached
    induction reached with
    | root top => simpa using walks.pending_subset top
    | child _ found listed ih =>
      have inside := walks.childrenOf_subset ih (mem_childrenOf_iff.2 ⟨_, found, listed⟩)
      simpa using inside

/-- A walk to the end comes to everything that it visits. -/
theorem comesTo {id : DeclId} {later : List DeclId}
    (walks : tree.Walks pending (met ++ id :: later) left) :
    ∃ rest, tree.Walks pending met (id :: rest) := by
  induction met generalizing pending with
  | nil =>
    cases walks with
    | visit => exact ⟨_, .stop _⟩
  | cons first met ih =>
    cases walks with
    | visit next =>
      obtain ⟨rest, walksOn⟩ := ih next
      exact ⟨rest, .visit walksOn⟩

/-- There is one order in which a walk comes to its end. -/
theorem unique {other : List DeclId} (walks : tree.Walks pending met [])
    (same : tree.Walks pending other []) : met = other := by
  wlog le : met.length ≤ other.length generalizing met other
  · exact (this same walks (Nat.le_of_not_le le)).symm
  obtain ⟨next, rfl, onward⟩ := walks.goesOn same le
  cases onward
  simp

end Walks

namespace BottomUp

variable (bottomUp : tree.BottomUp)

include bottomUp

theorem lt_of_mem_childrenOf {parent child : DeclId} (listed : child ∈ tree.childrenOf parent) :
    child.index < parent.index := by
  obtain ⟨decl, found, listed⟩ := mem_childrenOf_iff.1 listed
  exact bottomUp parent decl found child listed

/-- A walk into a declaration stays below it. -/
theorem straight (fine : DeclId → Prop) : tree.Straight fine pending := by
  intro id _ _ back
  obtain ⟨met, rest, walks, -⟩ := back
  have below := walks.holds (fun other => other.index < id.index) ?_ ?_
  · have again : id.index < id.index := below id (by simp)
    omega
  · intro other lower child listed
    have deeper := bottomUp.lt_of_mem_childrenOf listed
    omega
  · intro child listed
    exact bottomUp.lt_of_mem_childrenOf listed

/-- Every walk comes to its end, also one that begins at declarations that are not in the tree. -/
theorem exists_walks (ids : List DeclId) : ∃ order, tree.Walks ids order [] := by
  have each (id : DeclId) : ∃ order, tree.Walks [id] order [] := by
    generalize size : id.index = index
    induction index using Nat.strongRecOn generalizing id with
    | _ index ih =>
      have inside : ∀ child, ∃ order, child ∈ tree.childrenOf id → tree.Walks [child] order [] := by
        intro child
        by_cases listed : child ∈ tree.childrenOf id
        · have lower := bottomUp.lt_of_mem_childrenOf listed
          rw [size] at lower
          obtain ⟨order, walks⟩ := ih child.index lower child rfl
          exact ⟨order, fun _ => walks⟩
        · exact ⟨[], fun claimed => absurd claimed listed⟩
      choose order walks using inside
      have below := Walks.flatMap walks
      refine ⟨id :: (tree.childrenOf id).flatMap order, .visit ?_⟩
      simpa using below
  choose order walks using each
  exact ⟨ids.flatMap order, Walks.flatMap fun id _ => walks id⟩

end BottomUp

end Relabel.DeclTree
