import Mathlib.Data.List.Nodup
import Mathlib.Data.List.Pairwise
import Mathlib.Data.List.Perm.Subperm
import Relabel.Proofs.Tree.Owners

namespace Relabel.DeclTree

variable {tree : DeclTree}

/-- All that is under the roots is in the tree. -/
def Closed (tree : DeclTree) : Prop :=
  ∀ id, tree.Reachable id → ∃ decl, tree.get? id = some decl

/-- Every declaration under the roots has the one that lists it as its container, a root has none.
-/
structure Nested (tree : DeclTree) : Prop where
  roots : ∀ root ∈ tree.roots, ∀ decl, tree.get? root = some decl → decl.container = none
  children : ∀ parent decl child inner, tree.Reachable parent → tree.get? parent = some decl →
    child ∈ decl.form.children → tree.get? child = some inner → inner.container = some parent

/-- In a nested tree, what is under the roots is a root or is listed by its container. -/
theorem Nested.root_or_listed (nested : tree.Nested) {id : DeclId} {decl : Decl}
    (reached : tree.Reachable id) (found : tree.get? id = some decl) :
    (id ∈ tree.roots ∧ decl.container = none) ∨
      ∃ parent around, tree.Reachable parent ∧ tree.get? parent = some around ∧
        id ∈ around.form.children ∧ decl.container = some parent := by
  cases reached with
  | root listed => exact .inl ⟨listed, nested.roots id listed decl found⟩
  | @child parent _ around reachedParent foundParent listed =>
    have within := nested.children parent around id decl reachedParent foundParent listed found
    exact .inr ⟨parent, around, reachedParent, foundParent, listed, within⟩

/-- In a nested tree, the container of a declaration under the roots is under the roots too. -/
theorem Nested.reachable_container (nested : tree.Nested) {id container : DeclId} {decl : Decl}
    (reached : tree.Reachable id) (found : tree.get? id = some decl)
    (inside : decl.container = some container) : tree.Reachable container := by
  rcases nested.root_or_listed reached found with
    ⟨-, outside⟩ | ⟨parent, around, reachedParent, -, -, within⟩
  · rw [outside] at inside
    cases inside
  · obtain rfl := Option.some.inj (within.symm.trans inside)
    exact reachedParent

/-- A walk that is cut off at some depth has met as many declarations as it is deep. -/
theorem le_length_preorderFrom (closed : tree.Closed) {depth : Nat} {id : DeclId}
    (reached : tree.Reachable id) (cut : ¬tree.Fits depth id) :
    depth ≤ (tree.preorderFrom depth id).length := by
  induction depth generalizing id with
  | zero => exact Nat.zero_le _
  | succ depth ih =>
    obtain ⟨decl, found⟩ := closed id reached
    have below : ∃ child ∈ decl.form.children, ¬tree.Fits depth child := by
      by_contra all
      push Not at all
      exact cut ⟨decl, found, all⟩
    obtain ⟨child, listed, cutChild⟩ := below
    have long := ih (reached.child found listed) cutChild
    have part := (List.sublist_flatten_of_mem
      (List.mem_map_of_mem (f := tree.preorderFrom depth) listed)).length_le
    rw [preorderFrom_of_get? found, List.length_cons, List.flatMap_def]
    omega

theorem length_le_size {ids : List DeclId} (nodup : ids.Nodup)
    (known : ∀ id ∈ ids, ∃ decl, tree.get? id = some decl) : ids.length ≤ tree.size := by
  have distinct : (ids.map DeclId.index).Nodup := by
    refine nodup.map fun first second same => ?_
    cases first
    cases second
    exact congrArg DeclId.mk same
  have bounded : ids.map DeclId.index ⊆ List.range tree.size := by
    intro index inside
    obtain ⟨id, listed, rfl⟩ := List.mem_map.1 inside
    obtain ⟨decl, found⟩ := known id listed
    exact List.mem_range.2 (lt_size_of_get? found)
  have short := (List.subperm_of_subset distinct bounded).length_le
  simpa using short

/-- A walk that stays in the tree and meets nothing twice ends before the depth bound cuts it off.
-/
theorem fits_of_nodup_preorder (closed : tree.Closed) (nodup : tree.preorder.Nodup) :
    ∀ root ∈ tree.roots, tree.Fits tree.maxDepth root := by
  intro root listed
  by_contra cut
  have long := le_length_preorderFrom closed (.root listed) cut
  have part : (tree.preorderFrom tree.maxDepth root).Sublist tree.preorder := by
    rw [preorder, List.flatMap_def]
    exact List.sublist_flatten_of_mem (List.mem_map_of_mem listed)
  have short : tree.preorder.length ≤ tree.size :=
    length_le_size nodup fun id inside => closed id (reachable_of_mem_preorder inside)
  have order := part.length_le
  unfold maxDepth at long order
  omega

theorem closed_of_fits (fits : ∀ root ∈ tree.roots, tree.Fits tree.maxDepth root) :
    tree.Closed := by
  intro id reached
  exact exists_get?_of_mem_preorder fits ((mem_preorder_iff fits).2 reached)

/-- A tree can be indexed iff the walk from its roots stays in it and meets no symbol twice. -/
theorem exists_declared_iff : (∃ owners, tree.declared = .ok owners) ↔
    tree.Closed ∧ ((tree.owned tree.preorder).map Prod.fst).Nodup := by
  constructor
  · intro done
    obtain ⟨owners, declared⟩ := done
    obtain ⟨fits, rfl, distinct⟩ := declared_eq_ok_iff.1 declared
    rw [List.map_reverse, List.nodup_reverse] at distinct
    exact ⟨closed_of_fits fits, distinct⟩
  · intro both
    obtain ⟨closed, distinct⟩ := both
    have nodup : tree.preorder.Nodup :=
      nodup_of_owned (fun id inside => closed id (reachable_of_mem_preorder inside)) distinct
    refine ⟨_, declared_eq_ok_iff.2 ⟨fits_of_nodup_preorder closed nodup, rfl, ?_⟩⟩
    rwa [List.map_reverse, List.nodup_reverse]

section Listed

/-- The declarations directly inside a declaration; none if it is not in the tree. -/
def childrenOf (tree : DeclTree) (id : DeclId) : List DeclId :=
  ((tree.get? id).map (·.form.children)).getD []

theorem childrenOf_of_get? {id : DeclId} {decl : Decl} (found : tree.get? id = some decl) :
    tree.childrenOf id = decl.form.children := by
  simp [childrenOf, found]

theorem flatMap_perm_append {f g : DeclId → List DeclId} {ids : List DeclId}
    (each : ∀ id ∈ ids, (f id).Perm (id :: g id)) :
    (ids.flatMap f).Perm (ids ++ ids.flatMap g) := by
  have heads : (ids.flatMap f).Perm (ids.flatMap fun id => [id] ++ g id) :=
    List.Perm.flatMap_left _ each
  have parted := (List.flatMap_append_perm ids (fun id => [id]) g).symm
  rw [List.flatMap_singleton'] at parted
  exact heads.trans parted

theorem preorderFrom_perm {depth : Nat} {id : DeclId} (fits : tree.Fits depth id) :
    (tree.preorderFrom depth id).Perm
      (id :: (tree.preorderFrom depth id).flatMap tree.childrenOf) := by
  induction depth generalizing id with
  | zero => exact fits.elim
  | succ depth ih =>
    obtain ⟨decl, found, below⟩ := fits
    rw [preorderFrom_of_get? found, List.flatMap_cons, childrenOf_of_get? found, List.flatMap_assoc]
    exact (flatMap_perm_append fun child listed => ih (below child listed)).cons id

/-- A walk meets the roots and, for everything it meets, what is listed there. -/
theorem preorder_perm (fits : ∀ root ∈ tree.roots, tree.Fits tree.maxDepth root) :
    tree.preorder.Perm (tree.roots ++ tree.preorder.flatMap tree.childrenOf) := by
  rw [preorder, List.flatMap_assoc]
  exact flatMap_perm_append fun root listed => preorderFrom_perm (fits root listed)

variable (fits : ∀ root ∈ tree.roots, tree.Fits tree.maxDepth root) (nodup : tree.preorder.Nodup)

include fits nodup

/-- Where a walk meets nothing twice, no root is inside a declaration. -/
theorem not_listed_of_root {root parent : DeclId} {decl : Decl} (top : root ∈ tree.roots)
    (reached : tree.Reachable parent) (found : tree.get? parent = some decl) :
    root ∉ decl.form.children := by
  intro listed
  have apart := (preorder_perm fits).nodup_iff.1 nodup
  rw [List.nodup_append] at apart
  refine apart.2.2 root top root (List.mem_flatMap.2 ⟨parent, ?_, ?_⟩) rfl
  · exact (mem_preorder_iff fits).2 reached
  · rwa [childrenOf_of_get? found]

/-- Where a walk meets nothing twice, a declaration is listed in one place only. -/
theorem parent_unique {first second child : DeclId} {decl other : Decl}
    (reached : tree.Reachable first) (found : tree.get? first = some decl)
    (listed : child ∈ decl.form.children) (reachedOther : tree.Reachable second)
    (foundOther : tree.get? second = some other) (listedOther : child ∈ other.form.children) :
    first = second := by
  have apart := (preorder_perm fits).nodup_iff.1 nodup
  rw [List.nodup_append, List.nodup_flatMap] at apart
  have symmetric : Std.Symm (Function.onFun List.Disjoint tree.childrenOf) :=
    ⟨fun _ _ disjoint _ inside other => disjoint other inside⟩
  by_contra differs
  have disjoint : List.Disjoint (tree.childrenOf first) (tree.childrenOf second) :=
    apart.2.1.2.forall ((mem_preorder_iff fits).2 reached)
      ((mem_preorder_iff fits).2 reachedOther) differs
  rw [childrenOf_of_get? found, childrenOf_of_get? foundOther] at disjoint
  exact disjoint listed listedOther

end Listed

section Postorder

/-- Below a declaration that fits, what is inside another one comes before it in postorder. -/
theorem sublist_postorderFrom {depth : Nat} {root parent child : DeclId} {decl : Decl}
    (fits : tree.Fits depth root) (inside : parent ∈ tree.postorderFrom depth root)
    (found : tree.get? parent = some decl) (listed : child ∈ decl.form.children) :
    [child, parent].Sublist (tree.postorderFrom depth root) := by
  induction depth generalizing root with
  | zero => exact fits.elim
  | succ depth ih =>
    obtain ⟨top, foundTop, below⟩ := fits
    rw [postorderFrom_of_get? foundTop] at inside ⊢
    rcases List.mem_append.1 inside with inside | inside
    · obtain ⟨between, listedTop, inside⟩ := List.mem_flatMap.1 inside
      have part := List.sublist_flatten_of_mem
        (List.mem_map_of_mem (f := tree.postorderFrom depth) listedTop)
      rw [← List.flatMap_def] at part
      exact ((ih (below between listedTop) inside).trans part).trans (List.sublist_append_left _ _)
    · obtain rfl := List.mem_singleton.1 inside
      obtain rfl := Option.some.inj (found.symm.trans foundTop)
      have here : child ∈ tree.postorderFrom depth child :=
        (postorderFrom_perm (below child listed)).mem_iff.2
          (mem_preorderFrom_self (below child listed))
      have first := List.singleton_sublist.2 (List.mem_flatMap.2 ⟨child, listed, here⟩)
      exact first.append (List.Sublist.refl [parent])

theorem sublist_postorder (fits : ∀ root ∈ tree.roots, tree.Fits tree.maxDepth root)
    {parent child : DeclId} {decl : Decl} (reached : tree.Reachable parent)
    (found : tree.get? parent = some decl) (listed : child ∈ decl.form.children) :
    [child, parent].Sublist tree.postorder := by
  have inside := (postorder_perm fits).mem_iff.2 ((mem_preorder_iff fits).2 reached)
  obtain ⟨root, top, inside⟩ := List.mem_flatMap.1 inside
  have part := List.sublist_flatten_of_mem
    (List.mem_map_of_mem (f := tree.postorderFrom tree.maxDepth) top)
  rw [← List.flatMap_def] at part
  exact (sublist_postorderFrom (fits root top) inside found listed).trans part

end Postorder

section Depth

theorem Fits.mono {depth more : Nat} {id : DeclId} (fits : tree.Fits depth id) (le : depth ≤ more) :
    tree.Fits more id := by
  induction depth generalizing more id with
  | zero => exact fits.elim
  | succ depth ih =>
    obtain ⟨decl, found, below⟩ := fits
    obtain ⟨rest, rfl⟩ := Nat.exists_eq_add_of_le le
    rw [Nat.add_right_comm]
    exact ⟨decl, found, fun child listed => ih (below child listed) (Nat.le_add_right _ _)⟩

/-- What fits is walked in the same way whatever the depth bound. -/
theorem Fits.preorderFrom_eq {depth more : Nat} {id : DeclId} (fits : tree.Fits depth id)
    (fitsMore : tree.Fits more id) : tree.preorderFrom depth id = tree.preorderFrom more id := by
  induction depth generalizing more id with
  | zero => exact fits.elim
  | succ depth ih =>
    cases more with
    | zero => exact fitsMore.elim
    | succ more =>
      obtain ⟨decl, found, below⟩ := fits
      obtain ⟨same, foundSame, belowMore⟩ := fitsMore
      obtain rfl := Option.some.inj (found.symm.trans foundSame)
      rw [preorderFrom_of_get? found, preorderFrom_of_get? found]
      refine congrArg (List.cons id) (List.flatMap_congr fun child listed => ?_)
      exact ih (below child listed) (belowMore child listed)

theorem Fits.postorderFrom_eq {depth more : Nat} {id : DeclId} (fits : tree.Fits depth id)
    (fitsMore : tree.Fits more id) : tree.postorderFrom depth id = tree.postorderFrom more id := by
  induction depth generalizing more id with
  | zero => exact fits.elim
  | succ depth ih =>
    cases more with
    | zero => exact fitsMore.elim
    | succ more =>
      obtain ⟨decl, found, below⟩ := fits
      obtain ⟨same, foundSame, belowMore⟩ := fitsMore
      obtain rfl := Option.some.inj (found.symm.trans foundSame)
      rw [postorderFrom_of_get? found, postorderFrom_of_get? found]
      refine congrArg (· ++ [id]) (List.flatMap_congr fun child listed => ?_)
      exact ih (below child listed) (belowMore child listed)

/-- Where all is in the tree, a walk that may go deeper is the same. -/
theorem forM_walkFrom_of_fits {σ : Type} {visit : DeclId → Pass σ Unit} {depth : Nat}
    (fits : ∀ root ∈ tree.roots, tree.Fits tree.maxDepth root) (deep : tree.maxDepth ≤ depth) :
    tree.roots.forM (tree.walkFrom (fun _ => true) visit depth) = tree.preorder.forM visit := by
  refine forM_flatMap fun root listed => ?_
  have deeper := (fits root listed).mono deep
  rw [walkFrom_of_fits deeper, deeper.preorderFrom_eq (fits root listed)]

/-- A tree whose declarations all hold only earlier ones fits. -/
theorem fits_of_children_lt (inside : ∀ id decl, tree.Reachable id → tree.get? id = some decl →
      ∀ child ∈ decl.form.children, child.index < id.index)
    (closed : tree.Closed) {id : DeclId} (reached : tree.Reachable id) :
    tree.Fits (id.index + 1) id := by
  generalize size : id.index = index
  induction index using Nat.strongRecOn generalizing id with
  | _ index ih =>
    obtain ⟨decl, found⟩ := closed id reached
    refine ⟨decl, found, fun child listed => ?_⟩
    have lower := inside id decl reached found child listed
    rw [size] at lower
    exact (ih child.index lower (reached.child found listed) rfl).mono lower

end Depth

end Relabel.DeclTree
