import Relabel.Proofs.Copy.Allocation
import Relabel.Proofs.Tree.Nesting

namespace Relabel

theorem DeclId.placeIn_lt {order : List DeclId} {first second : DeclId} (nodup : order.Nodup)
    (before : [first, second].Sublist order) :
    (first.placeIn order).index < (second.placeIn order).index := by
  have ordered : order.Pairwise fun a b => order.idxOf a < order.idxOf b := by
    refine List.pairwise_iff_getElem.2 fun i j inside insideOther lower => ?_
    rwa [nodup.idxOf_getElem i inside, nodup.idxOf_getElem j insideOther]
  have two := ordered.sublist before
  simpa [placeIn] using two

namespace DeclTree

section AddAll

variable {tree : DeclTree} {decls : List Decl} {id : DeclId} {decl : Decl}

theorem get?_add_of_not_listed (found : tree.get? id = some decl) {other : Decl}
    (unlisted : id ∉ other.form.children) : (tree.add other).2.get? id = some decl := by
  have old : id ≠ ⟨tree.size⟩ := fun same => Nat.lt_irrefl _ (same ▸ lt_size_of_get? found)
  rw [get?_add, if_neg old, if_neg unlisted, found]

theorem get?_add_of_listed (found : tree.get? id = some decl) {other : Decl}
    (listed : id ∈ other.form.children) :
    (tree.add other).2.get? id = some (decl.within ⟨tree.size⟩) := by
  have old : id ≠ ⟨tree.size⟩ := fun same => Nat.lt_irrefl _ (same ▸ lt_size_of_get? found)
  rw [get?_add, if_neg old, if_pos listed, found]
  rfl

theorem get?_addAll_of_not_listed (found : tree.get? id = some decl)
    (unlisted : ∀ (index : Nat) (other : Decl), decls[index]? = some other →
      id ∉ other.form.children) : (tree.addAll decls).get? id = some decl := by
  induction decls generalizing tree with
  | nil => exact found
  | cons first decls ih =>
    have still := get?_add_of_not_listed found (unlisted 0 first rfl)
    exact ih still fun index other position => unlisted (index + 1) other position

/-- The last declaration that lists another one, already in the tree, becomes its container. -/
theorem get?_addAll_of_listed (found : tree.get? id = some decl) {last : Nat} {around : Decl}
    (position : decls[last]? = some around) (listed : id ∈ around.form.children)
    (final : ∀ (later : Nat) (other : Decl), last < later → decls[later]? = some other →
      id ∉ other.form.children) :
    (tree.addAll decls).get? id = some (decl.within ⟨tree.size + last⟩) := by
  induction decls generalizing tree last decl with
  | nil => exact nomatch position
  | cons first decls ih =>
    cases last with
    | zero =>
      obtain rfl : first = around := Option.some.inj position
      have finalRest (index : Nat) (other : Decl) (inside : decls[index]? = some other) :
          id ∉ other.form.children := final (index + 1) other (Nat.succ_pos index) inside
      change ((tree.add first).2.addAll decls).get? id = _
      exact get?_addAll_of_not_listed (get?_add_of_listed found listed) finalRest
    | succ last =>
      have size : (tree.add first).2.size + last = tree.size + (last + 1) := by
        rw [size_add]
        omega
      have finalRest (later : Nat) (other : Decl) (above : last < later)
          (inside : decls[later]? = some other) : id ∉ other.form.children :=
        final (later + 1) other (Nat.succ_lt_succ above) inside
      rw [← size]
      by_cases here : id ∈ first.form.children
      · exact ih (get?_add_of_listed found here) position finalRest
      · exact ih (get?_add_of_not_listed found here) position finalRest

/-- Adding declarations stage by stage: those before a position, the one there, those after it. -/
theorem addAll_of_position (tree : DeclTree) {index : Nat} (position : decls[index]? = some decl) :
    ∃ stage : DeclTree, tree.addAll decls = stage.addAll (decls.drop (index + 1)) ∧
      stage.size = tree.size + index + 1 ∧ stage.get? ⟨tree.size + index⟩ = some decl := by
  obtain ⟨inside, same⟩ := List.getElem?_eq_some_iff.1 position
  have size : (tree.addAll (decls.take index)).size = tree.size + index := by
    rw [size_addAll, List.length_take, Nat.min_eq_left (Nat.le_of_lt inside)]
  refine ⟨((tree.addAll (decls.take index)).add decl).2, ?_, ?_, ?_⟩
  · conv_lhs => rw [← List.take_append_drop index decls, List.drop_eq_getElem_cons inside, same]
    rw [addAll_append]
    rfl
  · rw [size_add, size]
  · rw [get?_add, size, if_pos rfl]

theorem get?_addAll_outermost (tree : DeclTree) {index : Nat}
    (position : decls[index]? = some decl)
    (unlisted : ∀ (later : Nat) (other : Decl), index < later → decls[later]? = some other →
      ⟨tree.size + index⟩ ∉ other.form.children) :
    (tree.addAll decls).get? ⟨tree.size + index⟩ = some decl := by
  obtain ⟨stage, same, -, here⟩ := addAll_of_position tree position
  rw [same]
  refine get?_addAll_of_not_listed here fun gap other inside => ?_
  rw [List.getElem?_drop] at inside
  exact unlisted (index + 1 + gap) other (by omega) inside

theorem get?_addAll_contained (tree : DeclTree) {index last : Nat} {around : Decl}
    (position : decls[index]? = some decl) (lower : index < last)
    (positionAround : decls[last]? = some around)
    (listed : ⟨tree.size + index⟩ ∈ around.form.children)
    (final : ∀ (later : Nat) (other : Decl), last < later → decls[later]? = some other →
      ⟨tree.size + index⟩ ∉ other.form.children) :
    (tree.addAll decls).get? ⟨tree.size + index⟩ = some (decl.within ⟨tree.size + last⟩) := by
  obtain ⟨stage, same, size, here⟩ := addAll_of_position tree position
  obtain ⟨gap, rfl⟩ := Nat.exists_eq_add_of_lt lower
  have position : index + 1 + gap = index + gap + 1 := by omega
  have positionLater : (decls.drop (index + 1))[gap]? = some around := by
    rw [List.getElem?_drop, position, positionAround]
  have container : stage.size + gap = tree.size + (index + gap + 1) := by omega
  rw [same, ← container]
  refine get?_addAll_of_listed here positionLater listed fun later other above inside => ?_
  rw [List.getElem?_drop] at inside
  exact final (index + 1 + later) other (by omega) inside

end AddAll

section Renamed

variable {tree : DeclTree} {owners : List (SymbolId × DeclId)} (indexed : tree.Indexed owners)
  (treeId : TreeId) (substitution : Substitution)

include indexed

/-- What lists a declaration in the copy is the copy of what lists it in the tree. -/
theorem exists_lister {id : DeclId} (reached : tree.Reachable id) {index : Nat} {other : Decl}
    (position : (tree.copies substitution tree.postorder tree.postorder)[index]? = some other)
    (listed : id.placeIn tree.postorder ∈ other.form.children) :
    ∃ parent decl, tree.Reachable parent ∧ tree.get? parent = some decl ∧
      id ∈ decl.form.children ∧ index = tree.postorder.idxOf parent := by
  rw [getElem?_copies indexed.known, Option.map_eq_some_iff] at position
  obtain ⟨decl, there, rfl⟩ := position
  obtain ⟨parent, place, found⟩ := Option.bind_eq_some_iff.1 there
  have reachedParent := (indexed.mem_postorder parent).1 (List.mem_of_getElem? place)
  change id.placeIn tree.postorder ∈ (decl.form.rename _ _).children at listed
  rw [DeclForm.children_rename, List.mem_map] at listed
  obtain ⟨child, listed, same⟩ := listed
  have reachedChild := reachedParent.child found listed
  obtain rfl := injOn_placeIn indexed reachedChild reached same
  obtain ⟨inside, here⟩ := List.getElem?_eq_some_iff.1 place
  refine ⟨parent, decl, reachedParent, found, listed, ?_⟩
  rw [← here, indexed.nodup.idxOf_getElem index inside]

theorem getElem?_copies_idxOf {id : DeclId} {decl : Decl} (reached : tree.Reachable id)
    (found : tree.get? id = some decl) :
    (tree.copies substitution tree.postorder tree.postorder)[tree.postorder.idxOf id]? =
      some (decl.rename substitution.apply (DeclId.placeIn tree.postorder)) := by
  have listed := (indexed.mem_postorder id).2 reached
  rw [getElem?_copies indexed.known, List.getElem?_idxOf listed, Option.bind_some, found]
  rfl

/-- The copy of a root is contained in nothing. -/
theorem get?_renamed_of_root {id : DeclId} {decl : Decl} (top : id ∈ tree.roots)
    (found : tree.get? id = some decl) :
    (tree.renamed treeId substitution).get? (id.placeIn tree.postorder) =
      some (decl.rename substitution.apply (DeclId.placeIn tree.postorder)) := by
  have reached : tree.Reachable id := .root top
  have nodup := indexed.nodup_preorder
  have position := getElem?_copies_idxOf indexed substitution reached found
  have here := get?_addAll_outermost { id := treeId } position
  rw [show size { id := treeId } = 0 from rfl, Nat.zero_add] at here
  refine here fun later other _ inside listed => ?_
  obtain ⟨parent, around, reachedParent, foundParent, listed, -⟩ :=
    exists_lister indexed substitution reached inside listed
  exact not_listed_of_root indexed.fits nodup top reachedParent foundParent listed

/-- The copy of a declaration is contained in the copy of what lists that declaration. -/
theorem get?_renamed_of_child {parent child : DeclId} {around decl : Decl}
    (reached : tree.Reachable parent) (foundParent : tree.get? parent = some around)
    (listed : child ∈ around.form.children) (found : tree.get? child = some decl) :
    (tree.renamed treeId substitution).get? (child.placeIn tree.postorder) = some
      ((decl.rename substitution.apply (DeclId.placeIn tree.postorder)).within
        (parent.placeIn tree.postorder)) := by
  have reachedChild := reached.child foundParent listed
  have nodup := indexed.nodup_preorder
  have position := getElem?_copies_idxOf indexed substitution reachedChild found
  have positionParent := getElem?_copies_idxOf indexed substitution reached foundParent
  have lower : tree.postorder.idxOf child < tree.postorder.idxOf parent :=
    DeclId.placeIn_lt indexed.nodup (sublist_postorder indexed.fits reached foundParent listed)
  have holds : child.placeIn tree.postorder ∈
      (around.rename substitution.apply (DeclId.placeIn tree.postorder)).form.children := by
    change _ ∈ (around.form.rename _ _).children
    rw [DeclForm.children_rename]
    exact List.mem_map_of_mem listed
  have contained := get?_addAll_contained { id := treeId } position lower positionParent
  rw [show size { id := treeId } = 0 from rfl, Nat.zero_add, Nat.zero_add] at contained
  refine contained holds fun later other above inside again => ?_
  obtain ⟨second, other, reachedSecond, foundSecond, listedSecond, rfl⟩ :=
    exists_lister indexed substitution reachedChild inside again
  obtain rfl := parent_unique indexed.fits nodup reached foundParent listed reachedSecond
    foundSecond listedSecond
  exact Nat.lt_irrefl _ above

end Renamed

section CopiedTo

variable {tree : DeclTree} {copy : Copy} {place : DeclId → DeclId}

theorem CopiedTo.reachable (copiedTo : tree.CopiedTo copy place)
    {id : DeclId} (reached : tree.Reachable id) : copy.tree.Reachable (place id) := by
  induction reached with
  | root listed =>
    refine .root ?_
    rw [copiedTo.roots]
    exact List.mem_map_of_mem listed
  | child reached found listed ih =>
    obtain ⟨image, foundImage, copied⟩ := copiedTo.exists_image reached found
    refine ih.child foundImage ?_
    rw [copied.form, DeclForm.children_rename]
    exact List.mem_map_of_mem listed

/-- Every declaration of the copy is the image of one under the roots. -/
theorem CopiedTo.exists_source (copiedTo : tree.CopiedTo copy place) {there : DeclId} {image : Decl}
    (foundImage : copy.tree.get? there = some image) :
    ∃ id decl, tree.Reachable id ∧ place id = there ∧ tree.get? id = some decl ∧
      decl.CopiedAs image copy.substitution place := by
  obtain ⟨id, reached, rfl⟩ := copiedTo.places.surjOn (lt_size_of_get? foundImage)
  obtain ⟨decl, image', found, foundImage', copied⟩ := copiedTo.decls id reached
  obtain rfl := Option.some.inj (foundImage.symm.trans foundImage')
  exact ⟨id, decl, reached, rfl, found, copied⟩

theorem CopiedTo.exists_reachable (copiedTo : tree.CopiedTo copy place) {there : DeclId}
    (reached : copy.tree.Reachable there) : ∃ id, tree.Reachable id ∧ place id = there := by
  cases reached with
  | root listed =>
    rw [copiedTo.roots, List.mem_map] at listed
    obtain ⟨id, listed, same⟩ := listed
    exact ⟨id, .root listed, same⟩
  | child _ foundImage listed =>
    obtain ⟨parent, decl, reached, -, found, copied⟩ := copiedTo.exists_source foundImage
    rw [copied.form, DeclForm.children_rename, List.mem_map] at listed
    obtain ⟨id, listed, same⟩ := listed
    exact ⟨id, reached.child found listed, same⟩

theorem CopiedTo.closed (copiedTo : tree.CopiedTo copy place) : copy.tree.Closed := by
  intro there reached
  obtain ⟨id, source, rfl⟩ := copiedTo.exists_reachable reached
  obtain ⟨-, image, -, foundImage, -⟩ := copiedTo.decls id source
  exact ⟨image, foundImage⟩

theorem CopiedTo.preorderFrom (copiedTo : tree.CopiedTo copy place) (depth : Nat) {id : DeclId}
    (reached : tree.Reachable id) :
    copy.tree.preorderFrom depth (place id) = (tree.preorderFrom depth id).map place := by
  induction depth generalizing id with
  | zero => rfl
  | succ depth ih =>
    obtain ⟨decl, image, found, foundImage, copied⟩ := copiedTo.decls id reached
    rw [preorderFrom_of_get? found, preorderFrom_of_get? foundImage, copied.form,
      DeclForm.children_rename, List.map_cons, List.map_flatMap, List.flatMap_map]
    refine congrArg (List.cons _) (List.flatMap_congr fun child listed => ?_)
    exact ih (reached.child found listed)

theorem CopiedTo.postorderFrom (copiedTo : tree.CopiedTo copy place) (depth : Nat) {id : DeclId}
    (reached : tree.Reachable id) :
    copy.tree.postorderFrom depth (place id) = (tree.postorderFrom depth id).map place := by
  induction depth generalizing id with
  | zero => rfl
  | succ depth ih =>
    obtain ⟨decl, image, found, foundImage, copied⟩ := copiedTo.decls id reached
    rw [postorderFrom_of_get? found, postorderFrom_of_get? foundImage, copied.form,
      DeclForm.children_rename, List.map_append, List.map_flatMap, List.flatMap_map]
    refine congrArg (· ++ [place id]) (List.flatMap_congr fun child listed => ?_)
    exact ih (reached.child found listed)

theorem CopiedTo.fits (copiedTo : tree.CopiedTo copy place) {depth : Nat} {id : DeclId}
    (reached : tree.Reachable id) (fits : copy.tree.Fits depth (place id)) :
    tree.Fits depth id := by
  induction depth generalizing id with
  | zero => exact fits.elim
  | succ depth ih =>
    obtain ⟨decl, image, found, foundImage, copied⟩ := copiedTo.decls id reached
    obtain ⟨image', foundImage', below⟩ := fits
    obtain rfl := Option.some.inj (foundImage.symm.trans foundImage')
    refine ⟨decl, found, fun child listed => ?_⟩
    refine ih (reached.child found listed) (below (place child) ?_)
    rw [copied.form, DeclForm.children_rename]
    exact List.mem_map_of_mem listed

/-- The copies lie in the order of what they are copies of. -/
theorem CopiedTo.postorder (copiedTo : tree.CopiedTo copy place)
    (fits : ∀ root ∈ tree.roots, tree.Fits tree.maxDepth root)
    (fitsCopy : ∀ root ∈ copy.tree.roots, copy.tree.Fits copy.tree.maxDepth root) :
    copy.tree.postorder = tree.postorder.map place := by
  rw [DeclTree.postorder, DeclTree.postorder, copiedTo.roots, List.flatMap_map, List.map_flatMap]
  refine List.flatMap_congr fun root top => ?_
  have reached : tree.Reachable root := .root top
  have listed : place root ∈ copy.tree.roots := by
    rw [copiedTo.roots]
    exact List.mem_map_of_mem top
  have shallow := copiedTo.fits reached (fitsCopy _ listed)
  rw [copiedTo.postorderFrom _ reached, shallow.postorderFrom_eq (fits root top)]

theorem CopiedTo.container_of_root (copiedTo : tree.CopiedTo copy place)
    (nested : copy.tree.Nested) {id : DeclId} {image : Decl} (listed : id ∈ tree.roots)
    (foundImage : copy.tree.get? (place id) = some image) : image.container = none := by
  have top : place id ∈ copy.tree.roots := by
    rw [copiedTo.roots]
    exact List.mem_map_of_mem listed
  exact nested.roots _ top image foundImage

theorem CopiedTo.container_of_child (copiedTo : tree.CopiedTo copy place)
    (nested : copy.tree.Nested) {parent id : DeclId} {around image : Decl}
    (reached : tree.Reachable parent) (foundParent : tree.get? parent = some around)
    (listed : id ∈ around.form.children) (foundImage : copy.tree.get? (place id) = some image) :
    image.container = some (place parent) := by
  obtain ⟨imageParent, foundImageParent, copied⟩ := copiedTo.exists_image reached foundParent
  have inside : place id ∈ imageParent.form.children := by
    rw [copied.form, DeclForm.children_rename]
    exact List.mem_map_of_mem listed
  exact nested.children _ imageParent _ image (copiedTo.reachable reached) foundImageParent inside
    foundImage

end CopiedTo

/-- How a copy lies in its arena: its walk meets the copies of what a walk of the tree meets, in the
same order, and everything is in the container that lists it. -/
structure LaidOut (tree : DeclTree) (copy : Copy) : Prop where
  fits : ∀ root ∈ copy.tree.roots, copy.tree.Fits copy.tree.maxDepth root
  preorder : copy.tree.preorder = tree.preorder.map (DeclId.placeIn tree.postorder)
  nodup : copy.tree.preorder.Nodup
  nested : copy.tree.Nested

namespace Copied

variable {σ : Type} {tree : DeclTree} {choose : Chooser σ} {before after : CopyState σ}
  {copy : Copy} {owners : List (SymbolId × DeclId)}

theorem nested (copied : tree.Copied choose before copy after owners) : copy.tree.Nested := by
  have copiedTo := copied.copiedTo
  constructor
  · intro there listed image foundImage
    rw [copiedTo.roots, List.mem_map] at listed
    obtain ⟨id, top, rfl⟩ := listed
    obtain ⟨decl, -, found, -⟩ := copiedTo.decls id (.root top)
    rw [copied.renamed, get?_renamed_of_root copied.indexed _ _ top found] at foundImage
    exact Option.some.inj foundImage ▸ rfl
  · intro above imageAbove there image reachedAbove foundAbove listed foundImage
    obtain ⟨parent, around, reached, rfl, found, same⟩ := copiedTo.exists_source foundAbove
    rw [same.form, DeclForm.children_rename, List.mem_map] at listed
    obtain ⟨child, listed, rfl⟩ := listed
    obtain ⟨decl, -, foundChild, -⟩ := copiedTo.decls child (reached.child found listed)
    rw [copied.renamed, get?_renamed_of_child copied.indexed _ _ reached found listed foundChild]
      at foundImage
    exact Option.some.inj foundImage ▸ rfl

/-- In a copy, a declaration lies before what contains it. -/
theorem children_lt (copied : tree.Copied choose before copy after owners) {there : DeclId}
    {image : Decl} (foundImage : copy.tree.get? there = some image) :
    ∀ child ∈ image.form.children, child.index < there.index := by
  intro inner listed
  obtain ⟨parent, around, reached, rfl, found, same⟩ := copied.copiedTo.exists_source foundImage
  rw [same.form, DeclForm.children_rename, List.mem_map] at listed
  obtain ⟨child, listed, rfl⟩ := listed
  exact DeclId.placeIn_lt copied.indexed.nodup
    (sublist_postorder copied.indexed.fits reached found listed)

theorem laidOut (copied : tree.Copied choose before copy after owners) : tree.LaidOut copy := by
  have copiedTo := copied.copiedTo
  have nodup := copied.indexed.nodup_preorder
  have fits (there : DeclId) (reached : copy.tree.Reachable there) :
      copy.tree.Fits copy.tree.maxDepth there := by
    obtain ⟨image, found⟩ := copiedTo.closed there reached
    have earlier := fits_of_children_lt (fun _ _ _ found => copied.children_lt found)
      copiedTo.closed reached
    have inside := lt_size_of_get? found
    exact earlier.mono (by unfold maxDepth; omega)
  have preorder : copy.tree.preorder = tree.preorder.map (DeclId.placeIn tree.postorder) := by
    rw [DeclTree.preorder, DeclTree.preorder, copiedTo.roots, List.flatMap_map, List.map_flatMap]
    refine List.flatMap_congr fun root top => ?_
    have reached : tree.Reachable root := .root top
    have shallow := copiedTo.fits reached (fits _ (copiedTo.reachable reached))
    rw [copiedTo.preorderFrom _ reached, shallow.preorderFrom_eq (copied.indexed.fits root top)]
  refine ⟨fun root listed => fits root (.root listed), preorder, ?_, copied.nested⟩
  rw [preorder]
  refine List.Nodup.map_on ?_ nodup
  intro first inside second insideSecond same
  exact injOn_placeIn copied.indexed (reachable_of_mem_preorder inside)
    (reachable_of_mem_preorder insideSecond) same

end Copied

section Run

variable {tree : DeclTree} {predicate : TypePredicate} {before after : RelabelState} {copy : Copy}
  (run : (tree.copy predicate).run before = .ok copy after)

include run

theorem copiedTo_of_copy : tree.CopiedTo copy (DeclId.placeIn tree.postorder) := by
  obtain ⟨last, walked, -⟩ := copy_run_eq_ok_iff.1 run
  obtain ⟨owners, copied⟩ := exists_copied_of_copyWith walked
  exact copied.copiedTo

theorem laidOut_of_copy : tree.LaidOut copy := by
  obtain ⟨last, walked, -⟩ := copy_run_eq_ok_iff.1 run
  obtain ⟨owners, copied⟩ := exists_copied_of_copyWith walked
  exact copied.laidOut

/-- A walk of a copy meets the copies of what is under the roots. -/
theorem forall_mem_preorder_copy_iff {property : DeclId → Prop} :
    (∀ there ∈ copy.tree.preorder, property there) ↔
      ∀ id, tree.Reachable id → property (id.placeIn tree.postorder) := by
  have copiedTo := copiedTo_of_copy run
  have fits := (laidOut_of_copy run).fits
  constructor
  · intro all id reached
    exact all _ ((mem_preorder_iff fits).2 (copiedTo.reachable reached))
  · intro all there inside
    obtain ⟨id, reached, rfl⟩ := copiedTo.exists_reachable ((mem_preorder_iff fits).1 inside)
    exact all id reached

end Run

theorem lt_of_get?_sample {id : DeclId} {decl : Decl} (found : sample.get? id = some decl) :
    id.index ∈ List.range 9 := List.mem_range.2 (lt_size_of_get? found)

theorem nested_sample : sample.Nested := by
  constructor
  · have all : ∀ root ∈ sample.roots,
        ((sample.get? root).map (·.container)).getD none = none := by decide +kernel
    intro root listed decl found
    have here := all root listed
    rwa [found] at here
  · have all : ∀ index ∈ List.range 9, ∀ child ∈ sample.childrenOf ⟨index⟩,
        ((sample.get? child).map (·.container)).getD none = some ⟨index⟩ := by decide +kernel
    intro parent decl child inner _ found listed foundChild
    rw [← childrenOf_of_get? found] at listed
    have here := all parent.index (lt_of_get?_sample found) child listed
    rwa [foundChild] at here

end DeclTree

end Relabel
