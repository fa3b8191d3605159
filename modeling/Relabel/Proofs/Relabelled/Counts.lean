import Relabel.Proofs.Binding.ClosedForm
import Relabel.Proofs.Copy.Fresh
import Relabel.Proofs.Relabelled
import Relabel.Proofs.Tree.Walking

namespace Relabel

/-- How a tree lies in its arena if it has been laid out bottom up: a walk meets all of the arena, once,
each declaration has what lists it as its container, and what it lists lies before it. -/
structure DeclTree.LaidBottomUp (tree : DeclTree) : Prop where
  children_lt : ∀ id decl, tree.get? id = some decl → ∀ child ∈ decl.form.children,
    child.index < id.index
  walks : ∃ met, tree.Walks tree.roots met [] ∧ met.Nodup ∧
    (∀ id, id ∈ met ↔ id.index < tree.size) ∧
    ∀ (σ : Type) (visit : DeclId → Pass σ Unit) (depth : Nat), tree.maxDepth ≤ depth →
      tree.roots.forM (tree.walkFrom (fun _ => true) visit depth) = met.forM visit
  container_iff : ∀ id decl container, tree.get? id = some decl →
    (decl.container = some container ↔
      ∃ around, tree.get? container = some around ∧ id ∈ around.form.children)
  root_iff : ∀ id decl, tree.get? id = some decl → (decl.container = none ↔ id ∈ tree.roots)

namespace DeclTree

variable {tree : DeclTree} {copy : Copy}

theorem CopiedTo.reachable_iff {place : DeclId → DeclId} (copiedTo : tree.CopiedTo copy place)
    {there : DeclId} : copy.tree.Reachable there ↔ there.index < copy.tree.size := by
  constructor
  · intro reached
    obtain ⟨image, found⟩ := copiedTo.closed there reached
    exact lt_size_of_get? found
  · intro inside
    obtain ⟨id, reached, rfl⟩ := copiedTo.places.surjOn inside
    exact copiedTo.reachable reached

theorem Copied.laidBottomUp {σ : Type} {choose : Chooser σ} {before after : CopyState σ}
    {owners : List (SymbolId × DeclId)} (copied : tree.Copied choose before copy after owners) :
    copy.tree.LaidBottomUp := by
  have laidOut := copied.laidOut
  have inArena {id : DeclId} : copy.tree.Reachable id ↔ id.index < copy.tree.size :=
    copied.copiedTo.reachable_iff
  have reached {id : DeclId} {decl : Decl} (found : copy.tree.get? id = some decl) :
      copy.tree.Reachable id := inArena.2 (lt_size_of_get? found)
  constructor
  · intro id decl found
    exact copied.children_lt found
  · refine ⟨copy.tree.preorder, .preorder laidOut.fits, laidOut.nodup, fun id => ?_, ?_⟩
    · rw [mem_preorder_iff laidOut.fits, inArena]
    · exact fun _ _ _ deep => forM_walkFrom_of_fits laidOut.fits deep
  · intro id decl container found
    constructor
    · intro inside
      rcases laidOut.nested.root_or_listed (reached found) found with
        ⟨-, outside⟩ | ⟨parent, around, -, foundParent, listed, within⟩
      · rw [outside] at inside
        cases inside
      · obtain rfl := Option.some.inj (within.symm.trans inside)
        exact ⟨around, foundParent, listed⟩
    · rintro ⟨around, foundAround, listed⟩
      exact laidOut.nested.children container around id decl (reached foundAround) foundAround listed
        found
  · intro id decl found
    constructor
    · intro outside
      rcases laidOut.nested.root_or_listed (reached found) found with
        ⟨listed, -⟩ | ⟨parent, around, -, -, -, within⟩
      · exact listed
      · rw [outside] at within
        cases within
    · intro listed
      exact laidOut.nested.roots id listed decl found

/-- What a relabelling counts: it visits its whole copy, which is what was under the roots, binds the
symbols that are new, and finds nothing bound. -/
structure Counted (tree : DeclTree) (out : Relabelled) : Prop where
  visited : out.stats.visited = out.tree.size
  size : out.tree.size = {id | tree.Reachable id}.ncard
  bound : out.stats.bound = out.substitution.replacements.length
  alreadyBound : out.stats.alreadyBound = 0

theorem CopiedTo.size_eq_ncard {place : DeclId → DeclId} (copiedTo : tree.CopiedTo copy place) :
    copy.tree.size = {id | tree.Reachable id}.ncard := by
  have places : {there : DeclId | there.index < copy.tree.size}.ncard = copy.tree.size := by
    have nodup : ((List.range copy.tree.size).map DeclId.mk).Nodup :=
      List.nodup_range.map fun _ _ same => congrArg DeclId.index same
    have mem (there : DeclId) : there ∈ {there : DeclId | there.index < copy.tree.size} ↔
        there ∈ (List.range copy.tree.size).map DeclId.mk := by
      cases there
      simp
    rw [ncard_of_nodup nodup mem, List.length_map, List.length_range]
  rw [← places, ← copiedTo.places.image_eq, copiedTo.places.injOn.ncard_image]

theorem counted_of_relabel {predicate : TypePredicate} {options : RelabelOptions}
    {before after : RelabelState} {out : Relabelled}
    (run : (tree.relabel predicate options).run before = .ok out after) : tree.Counted out := by
  obtain ⟨middle, copying, binding⟩ := relabel_run_ok run
  obtain ⟨owners, renewal⟩ := exists_renewedBy copying
  have size := renewal.copiedTo.size_eq_ncard
  have stats := stats_of_copy copying binding
  refine ⟨?_, size, ?_, ?_⟩
  · rw [stats, size, ncard_reachable renewal.indexed.fits renewal.indexed.nodup_preorder]
  · rw [stats, renewal.length_replacements]
  · rw [stats]

/-- Whatever chooses the symbols, a copy that is made is laid out bottom up, and whatever is relabelled,
the counts tell how large the copy is and how many symbols are new. -/
theorem laidBottomUp_and_counted (tree : DeclTree) :
    (∀ (σ : Type) (choose : Chooser σ) (before after : CopyState σ) (copy : Copy),
      (tree.copyWith choose).run before = .ok copy after → copy.tree.LaidBottomUp) ∧
    ∀ (predicate : TypePredicate) (options : RelabelOptions) (before after : RelabelState)
      (out : Relabelled), (tree.relabel predicate options).run before = .ok out after →
        tree.Counted out := by
  constructor
  · intro σ choose before after copy run
    obtain ⟨owners, copied⟩ := exists_copied_of_copyWith run
    exact copied.laidBottomUp
  · intro predicate options before after out run
    exact counted_of_relabel run

/-- The sample with containers that are all wrong. -/
def sampleAstray : DeclTree :=
  { sample with decls := sample.decls.map fun decl => decl.within ⟨8⟩ }

theorem laidBottomUp_and_counted_sampleAstray :
    (∃ copy after, (sampleAstray.copyWith .keep).run ⟨sampleSymbols, (), []⟩ = .ok copy after ∧
      copy.tree.LaidBottomUp) ∧
    ∃ out after, (sampleAstray.relabel (.marked ⟨9⟩) {}).run ⟨sampleSymbols, []⟩ = .ok out after ∧
      sampleAstray.Counted out := by
  have copies : (sampleAstray.copyWith .keep).succeeds ⟨sampleSymbols, (), []⟩ = true := by
    decide +kernel
  have relabels : (sampleAstray.relabel (.marked ⟨9⟩) {}).succeeds ⟨sampleSymbols, []⟩ = true := by
    decide +kernel
  obtain ⟨copy, afterCopy, copying⟩ := Pass.succeeds_eq_true_iff.1 copies
  obtain ⟨out, after, run⟩ := Pass.succeeds_eq_true_iff.1 relabels
  obtain ⟨laid, counted⟩ := laidBottomUp_and_counted sampleAstray
  exact ⟨⟨copy, afterCopy, copying, laid Unit _ _ _ _ copying⟩,
    out, after, run, counted _ _ _ _ _ run⟩

end DeclTree

end Relabel
