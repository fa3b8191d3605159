import Relabel.Proofs.Copy.Fresh
import Relabel.Proofs.Judge.Renaming
import Relabel.Proofs.Relabelled.Success

namespace Relabel

theorem Symbol.isPlaceholder_claimedAt (symbol : Symbol) (site : DeclSite) (span : Span) :
    (symbol.claimedAt site span).isPlaceholder = symbol.isPlaceholder := by
  rw [isPlaceholder, isPlaceholder, origin_claimedAt]

namespace DeclTree

variable {tree : DeclTree}

section Marked

variable {marker : Name} {before middle : RelabelState} {copy : Copy} {stats : BindingStats}
  {last : SymbolTable} (nested : tree.Nested)
  (known : ∀ id decl, tree.Reachable id → tree.get? id = some decl →
    ∃ symbol, before.symbols.get? decl.symbol = some symbol)
  (copying : (tree.copy (.marked marker)).run before = .ok copy middle)
  (binding : copy.tree.bindPlaceholders.run middle.symbols = .ok stats last)

include nested known copying binding

theorem rulingWith_copy {outer other : DeclId → Except PassError Bool}
    (agree : ∀ container around, tree.Reachable container → tree.get? container = some around →
      around.form.isSignature = true →
      other (container.placeIn tree.postorder) = outer container)
    {id : DeclId} {decl : Decl} {symbol : Symbol} {transformed : Bool} {image : Decl}
    (reached : tree.Reachable id)
    (imaged : tree.Imaged (.marked marker) before.symbols middle.symbols copy id decl symbol
      transformed image)
    (ruled : (Judge.mk tree (.marked marker)).rulingWith before.symbols outer id =
      .ok transformed) :
    (Judge.mk copy.tree (.marked marker)).rulingWith last other (id.placeIn tree.postorder) =
      .ok transformed := by
  have data := get?_of_imaged (informed_of_nested nested known) copying binding reached imaged
  rw [Judge.rulingWith_of_known imaged.source imaged.known] at ruled
  rw [Judge.rulingWith_of_known imaged.found data, Symbol.isPlaceholder_claimedAt,
    Symbol.isPlaceholder_copied]
  exact Judge.rulingOn_image (copiedTo_of_copy copying) nested (laidOut_of_copy copying).nested
    agree reached imaged.source imaged.found imaged.copiedAs ruled _

/-- A copy with bound placeholders is judged as the tree was: first the signatures, then what
follows them. -/
theorem ruling_copy {id : DeclId} {decl : Decl} {symbol : Symbol} {transformed : Bool}
    {image : Decl}
    (reached : tree.Reachable id)
    (imaged : tree.Imaged (.marked marker) before.symbols middle.symbols copy id decl symbol
      transformed image) :
    (Judge.mk copy.tree (.marked marker)).ruling last (id.placeIn tree.postorder) =
      .ok transformed := by
  refine rulingWith_copy nested known copying binding
    (fun container around outside found isSignature => ?_) reached imaged imaged.ruled
  obtain ⟨around', data, verdict, there, imagedAround⟩ :=
    exists_imaged_of_reachable (informed_of_nested nested known) copying outside
  have ruled : (Judge.mk tree (.marked marker)).rulingWith before.symbols (fun _ => pure false)
      container = .ok verdict := by
    rw [← imagedAround.ruled]
    exact Judge.rulingWith_of_isSignature found isSignature _ _
  rw [ruled]
  exact rulingWith_copy nested known copying binding (fun _ _ _ _ _ => rfl) outside imagedAround
    ruled

theorem informed_copy (there : DeclId) (reached : copy.tree.Reachable there) :
    (Judge.mk copy.tree (.marked marker)).Informed last there := by
  have laidOut := laidOut_of_copy copying
  refine informed_of_nested laidOut.nested (fun other image reached found => ?_) there reached
  obtain ⟨same, symbol, foundSame, here⟩ := known_of_claimed (informed_of_nested nested known)
    copying binding other ((mem_preorder_iff laidOut.fits).2 reached)
  obtain rfl := Option.some.inj (found.symm.trans foundSame)
  exact ⟨symbol, here⟩

section Again

variable {consulted : List TypeExpr} {second : Copy} {middleAgain : RelabelState}
  (copyingAgain : (copy.tree.copy (.marked marker)).run ⟨last, consulted⟩ = .ok second middleAgain)

include copyingAgain

/-- A second copy replaces what the first one has put in the place of something else. -/
theorem isReplaced_again {id : DeclId} {decl : Decl} {symbol : Symbol} {transformed : Bool}
    {image : Decl} (reached : tree.Reachable id)
    (imaged : tree.Imaged (.marked marker) before.symbols middle.symbols copy id decl symbol
      transformed image) :
    second.substitution.isReplaced image.symbol = copy.substitution.isReplaced decl.symbol := by
  have data := get?_of_imaged (informed_of_nested nested known) copying binding reached imaged
  obtain ⟨verdict, again, imagedAgain⟩ := exists_imaged (informed_copy nested known copying binding)
    copyingAgain ((copiedTo_of_copy copying).reachable reached) imaged.found data
  have same : transformed = verdict := by
    have ruled := ruling_copy nested known copying binding reached imaged
    rw [imagedAgain.ruled] at ruled
    exact (Except.ok.inj ruled).symm
  rw [imagedAgain.isReplaced, imaged.isReplaced, same, Symbol.kind_claimedAt, Symbol.kind_copied]

/-- The symbols replaced by a second copy are those of the copies of what the first one has renewed.
-/
theorem isReplaced_again_iff {symbol : SymbolId} : second.substitution.isReplaced symbol = true ↔
    ∃ id decl image, tree.Reachable id ∧ tree.get? id = some decl ∧
      copy.tree.get? (id.placeIn tree.postorder) = some image ∧ image.symbol = symbol ∧
      copy.substitution.isReplaced decl.symbol = true := by
  have informed : ∀ id, tree.Reachable id →
      (Judge.mk tree (.marked marker)).Informed before.symbols id := informed_of_nested nested known
  have informedAgain : ∀ there, copy.tree.Reachable there →
      (Judge.mk copy.tree (.marked marker)).Informed
        (RelabelState.mk last consulted).symbols there :=
    informed_copy nested known copying binding
  constructor
  · intro isReplaced
    obtain ⟨owners, replaced, copied⟩ :=
      exists_selectivelyCopied (known_of_informed informedAgain) copyingAgain
    obtain ⟨there, -, owner, -⟩ :=
      copied.selected.owned symbol (copied.isReplaced_eq_true_iff.1 isReplaced)
    obtain ⟨reachedThere, image, foundImage, rfl⟩ := (copied.indexed.lookup symbol there).1 owner
    obtain ⟨id, reached, rfl⟩ := (copiedTo_of_copy copying).exists_reachable reachedThere
    obtain ⟨decl, symbol, verdict, image', imaged⟩ :=
      exists_imaged_of_reachable informed copying reached
    obtain rfl := Option.some.inj (foundImage.symm.trans imaged.found)
    have same := isReplaced_again nested known copying binding copyingAgain reached imaged
    exact ⟨id, decl, image, reached, imaged.source, foundImage, rfl, same.symm.trans isReplaced⟩
  · intro owned
    obtain ⟨id, decl, image, reached, found, foundImage, rfl, isReplaced⟩ := owned
    obtain ⟨decl', symbol, verdict, image', imaged⟩ :=
      exists_imaged_of_reachable informed copying reached
    obtain rfl := Option.some.inj (found.symm.trans imaged.source)
    obtain rfl := Option.some.inj (foundImage.symm.trans imaged.found)
    have same := isReplaced_again nested known copying binding copyingAgain reached imaged
    exact same.trans isReplaced

theorem stats_again {statsAgain : BindingStats} {lastAgain : SymbolTable}
    (bindingAgain : second.tree.bindPlaceholders.run middleAgain.symbols =
      .ok statsAgain lastAgain) : statsAgain = stats := by
  have informed : ∀ id, tree.Reachable id →
      (Judge.mk tree (.marked marker)).Informed before.symbols id := informed_of_nested nested known
  have informedAgain : ∀ there, copy.tree.Reachable there →
      (Judge.mk copy.tree (.marked marker)).Informed
        (RelabelState.mk last consulted).symbols there :=
    informed_copy nested known copying binding
  rw [stats_of_copy copyingAgain bindingAgain, stats_of_copy copying binding,
    (laidOut_of_copy copying).preorder, List.length_map, List.countP_map]
  congr 1
  refine List.countP_congr fun id inside => ?_
  have reached := reachable_of_mem_preorder inside
  obtain ⟨decl, symbol, verdict, image, imaged⟩ :=
    exists_imaged_of_reachable informed copying reached
  have same := isReplaced_again nested known copying binding copyingAgain reached imaged
  rw [Function.comp_apply, renews, renews, imaged.found, imaged.source, Option.any_some,
    Option.any_some, same]

end Again

end Marked

/-- A second relabelling replaces the symbols of exactly the copies of the declarations replaced by
the first one, and it counts what that counted. -/
structure Repeats (tree : DeclTree) (place : DeclId → DeclId) (out again : Relabelled) : Prop where
  replaced_iff : ∀ symbol, again.substitution.isReplaced symbol = true ↔
    ∃ id decl image, tree.Reachable id ∧ tree.get? id = some decl ∧
      out.tree.get? (place id) = some image ∧ image.symbol = symbol ∧
      out.substitution.isReplaced decl.symbol = true
  bound : again.stats.bound = out.stats.bound
  visited : again.stats.visited = out.stats.visited

/-- Relabelling by an annotation can be repeated: a new judge finds the copies to be what it found
their originals to be, so that a second relabelling replaces again what the first one did. -/
theorem repeats_of_relabel (tree : DeclTree) (marker : Name) (options : RelabelOptions)
    (before after : RelabelState) (out : Relabelled) (nested : tree.Nested)
    (known : ∀ id decl, tree.Reachable id → tree.get? id = some decl →
      ∃ symbol, before.symbols.get? decl.symbol = some symbol)
    (run : (tree.relabel (.marked marker) options).run before = .ok out after) :
    ∃ place, tree.CopiedTo ⟨out.tree, out.substitution⟩ place ∧
      (∀ id, tree.Reachable id → ∃ verdict,
        (Judge.mk tree (.marked marker)).Finds before.symbols id verdict ∧
        (Judge.mk out.tree (.marked marker)).Finds after.symbols (place id) verdict) ∧
      ∀ optionsAgain consulted again last,
        (out.tree.relabel (.marked marker) optionsAgain).run ⟨after.symbols, consulted⟩ =
          .ok again last → tree.Repeats place out again := by
  obtain ⟨middle, copying, binding⟩ := relabel_run_ok run
  refine ⟨_, copiedTo_of_copy copying, fun id reached => ?_,
    fun optionsAgain consulted again last rerun => ?_⟩
  · obtain ⟨decl, symbol, verdict, image, imaged⟩ :=
      exists_imaged_of_reachable (informed_of_nested nested known) copying reached
    have again := ruling_copy nested known copying binding reached imaged
    exact ⟨verdict, Judge.finds_iff.2 imaged.ruled, Judge.finds_iff.2 again⟩
  · obtain ⟨middleAgain, copyingAgain, bindingAgain⟩ := relabel_run_ok rerun
    have stats : again.stats = out.stats :=
      stats_again nested known copying binding copyingAgain bindingAgain
    refine ⟨fun symbol => ?_, by rw [stats], by rw [stats]⟩
    exact isReplaced_again_iff nested known copying binding copyingAgain

theorem repeats_of_relabel_sample : ∃ out after,
    (sample.relabel (.marked ⟨9⟩) {}).run ⟨sampleSymbols, []⟩ = .ok out after ∧
      ∃ place, sample.CopiedTo ⟨out.tree, out.substitution⟩ place ∧
        ∃ again last, (out.tree.relabel (.marked ⟨9⟩) {}).run ⟨after.symbols, []⟩ = .ok again last ∧
          sample.Repeats place out again := by
  have done : (do
      let out ← sample.relabel (.marked ⟨9⟩) {}
      modify fun state => RelabelState.mk state.symbols []
      out.tree.relabel (.marked ⟨9⟩) {}).succeeds ⟨sampleSymbols, []⟩ = true := by decide +kernel
  obtain ⟨again, last, both⟩ := Pass.succeeds_eq_true_iff.1 done
  obtain ⟨out, after, run, rest⟩ := Pass.run_bind_eq_ok_iff.1 both
  obtain ⟨_, _, reset, rerun⟩ := Pass.run_bind_eq_ok_iff.1 rest
  cases reset
  obtain ⟨place, copiedTo, -, repeats⟩ := repeats_of_relabel sample ⟨9⟩ {} ⟨sampleSymbols, []⟩ after
    out nested_sample (fun _ _ _ found => exists_get?_sampleSymbols found List.mem_cons_self) run
  exact ⟨out, after, run, place, copiedTo, again, last, rerun, repeats {} [] again last rerun⟩

end DeclTree

end Relabel
