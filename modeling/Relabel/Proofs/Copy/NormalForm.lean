import Relabel.Proofs.Binding
import Relabel.Proofs.Copy.Assigned
import Relabel.Proofs.Copy.Success
import Relabel.Proofs.RenamingLaws

namespace Relabel

/-- The places of the declarations in an order without repeats are all numbers, in turn. -/
theorem DeclId.map_placeIn {order : List DeclId} (nodup : order.Nodup) :
    order.map (DeclId.placeIn order) = (List.range order.length).map DeclId.mk := by
  apply List.ext_getElem
  · simp
  · intro index inside _
    simp [placeIn, nodup.idxOf_getElem]

/-- Settling symbols so that each stays. -/
def Substitution.identity (symbols : List SymbolId) : Substitution :=
  ⟨symbols.eraseDups.map fun symbol => (symbol, symbol)⟩

theorem Substitution.eq_of_get?_identity {symbols : List SymbolId} {old new : SymbolId}
    (found : (identity symbols).get? old = some new) : new = old := by
  have listed := mem_of_lookup found
  simp only [identity, List.mem_map, Prod.mk.injEq] at listed
  obtain ⟨symbol, -, rfl, rfl⟩ := listed
  rfl

@[simp]
theorem Substitution.apply_identity (symbols : List SymbolId) (old : SymbolId) :
    (identity symbols).apply old = old := by
  unfold apply
  cases found : (identity symbols).get? old with
  | none => simp
  | some new => simpa using eq_of_get?_identity found

namespace Chooser

variable {σ : Type} {judge : Judge} {owners : List (SymbolId × DeclId)}

/-- Where no declaration is transformed, all symbols stay. -/
theorem entries_of_untransformed {symbols : List SymbolId} {entries : List (SymbolId × SymbolId)}
    {before after : CopyState Judge.Memory} (recalls : judge.Recalls before.symbols before.memory)
    (untransformed : ∀ old id, owners.lookup old = some id →
      judge.ruling before.symbols id ≠ .ok true)
    (run : (symbols.mapM (entry (selective judge) owners)).run before = .ok entries after) :
    entries = (symbols.map fun symbol => (symbol, symbol)) ∧ after.symbols = before.symbols := by
  induction symbols generalizing entries before with
  | nil =>
    obtain ⟨rfl, rfl⟩ := EStateM.Result.ok.inj run
    simp
  | cons old symbols ih =>
    obtain ⟨new, rest, middle, settled, others, rfl⟩ := mapM_entry_cons_run run
    have kept : new = old ∧ middle.symbols = before.symbols ∧
        judge.Recalls middle.symbols middle.memory := by
      cases owner : owners.lookup old with
      | none =>
        obtain ⟨rfl, rfl⟩ := settle_run_of_foreign owner settled
        exact ⟨rfl, rfl, recalls⟩
      | some id =>
        obtain ⟨transformed, judged, replacement⟩ := settle_run_of_owned owner settled
        obtain ⟨ruled, recallsNext⟩ :=
          (Judge.verdict_yields judge before.symbols id).eq_ok recalls judged
        cases transformed with
        | true => exact absurd ruled (untransformed old id owner)
        | false =>
          rw [SymbolTable.replacementFor_untransformed] at replacement
          simp only [Except.ok.injEq, Prod.mk.injEq] at replacement
          obtain ⟨rfl, same⟩ := replacement
          rw [← same]
          exact ⟨rfl, rfl, recallsNext⟩
    obtain ⟨rfl, same, recallsNext⟩ := kept
    rw [← same] at untransformed
    obtain ⟨rfl, unchanged⟩ := ih recallsNext untransformed others
    exact ⟨by simp, unchanged.trans same⟩

end Chooser

namespace DeclTree

variable {σ : Type} {tree : DeclTree}

/-- Two trees with the same declarations and roots, maybe under different numbers. -/
structure SameArena (tree other : DeclTree) : Prop where
  decls : other.decls = tree.decls
  roots : other.roots = tree.roots

/-- The arena holds what is under the roots and nothing else, each declaration right after those inside
it, and what lists a declaration is its container. -/
structure Normal (tree : DeclTree) : Prop where
  numbered : tree.postorder = (List.range tree.size).map DeclId.mk
  nested : tree.Nested

/-- The copy in which every symbol stays. -/
def identityCopy (tree : DeclTree) (id : TreeId) : Copy :=
  ⟨tree.renamed id (.identity tree.symbolsInUse), .identity tree.symbolsInUse⟩

theorem decls_addAll {other : DeclTree} (same : other.decls = tree.decls) (decls : List Decl) :
    (other.addAll decls).decls = (tree.addAll decls).decls := by
  induction decls generalizing tree other with
  | nil => exact same
  | cons decl decls ih =>
    have added : (other.add decl).2.decls = (tree.add decl).2.decls := by
      simp [DeclTree.add, size, same]
    exact ih added

/-- The number of a tree does not matter to what is in it. -/
theorem sameArena_identityCopy (tree : DeclTree) (first second : TreeId) :
    (tree.identityCopy first).tree.SameArena (tree.identityCopy second).tree := by
  have empty : DeclTree.decls { id := second } = DeclTree.decls { id := first } := rfl
  exact ⟨decls_addAll empty (tree.copies _ tree.postorder tree.postorder), rfl⟩

/-- Where none are chosen, all symbols stay. -/
theorem assignment_nil (tree : DeclTree) (owners : List (SymbolId × DeclId)) :
    tree.assignment [] owners = .identity tree.symbolsInUse := by
  simp only [assignment, Chooser.assigned_nil, Substitution.identity]

theorem copyWith_keep_run {owners : List (SymbolId × DeclId)} (declared : tree.declared = .ok owners)
    (before : CopyState σ) : ∃ asked, (tree.copyWith .keep).run before =
      .ok (tree.identityCopy before.symbols.takeTree.1)
        { before with symbols := before.symbols.takeTree.2, asked } := by
  have kept := copyWith_assign_run declared [] before
  rwa [Chooser.assign_nil, assignment_nil] at kept

theorem declared_of_copyWith {choose : Chooser σ} {before after : CopyState σ} {copy : Copy}
    (run : (tree.copyWith choose).run before = .ok copy after) :
    ∃ owners, tree.declared = .ok owners := by
  obtain ⟨owners, copied⟩ := exists_copied_of_copyWith run
  exact ⟨owners, copied.declared⟩

/-- A copy in which every symbol stays is this one, and all that it takes from the table is a number. -/
theorem eq_identityCopy_of_copyWith {before after : CopyState σ} {copy : Copy}
    (run : (tree.copyWith .keep).run before = .ok copy after) :
    copy = tree.identityCopy before.symbols.takeTree.1 ∧
      after.symbols = before.symbols.takeTree.2 := by
  obtain ⟨owners, declared⟩ := declared_of_copyWith run
  obtain ⟨asked, same⟩ := copyWith_keep_run declared before
  rw [run] at same
  cases same
  exact ⟨rfl, rfl⟩

/-- Any copy is normal, whatever the chooser. -/
theorem Copied.normal {choose : Chooser σ} {before after : CopyState σ} {copy : Copy}
    {owners : List (SymbolId × DeclId)} (copied : tree.Copied choose before copy after owners) :
    copy.tree.Normal := by
  have size : copy.tree.size = tree.postorder.length := by
    rw [copied.renamed, size_renamed copied.indexed]
  refine ⟨?_, copied.nested⟩
  rw [copied.copiedTo.postorder copied.indexed.fits copied.laidOut.fits, size,
    DeclId.map_placeIn copied.indexed.nodup]

/-- A tree that has the same arena and roots as a copy of it has been normal before. -/
theorem CopiedTo.normal_of_same {copy : Copy} {place : DeclId → DeclId}
    (copiedTo : tree.CopiedTo copy place) (normal : copy.tree.Normal)
    (fits : ∀ root ∈ tree.roots, tree.Fits tree.maxDepth root)
    (fitsCopy : ∀ root ∈ copy.tree.roots, copy.tree.Fits copy.tree.maxDepth root)
    (same : tree.SameArena copy.tree) : tree.Normal := by
  have get? (id : DeclId) : copy.tree.get? id = tree.get? id := by
    unfold DeclTree.get?
    rw [same.decls]
  have fixed : ∀ id, tree.Reachable id → place id = id := by
    intro id reached
    induction reached with
    | root top =>
      have unmoved : tree.roots.map place = tree.roots.map fun other => other := by
        rw [← copiedTo.roots, same.roots, List.map_id']
      exact List.map_inj_left.1 unmoved _ top
    | @child parent child decl reached found listed ih =>
      obtain ⟨image, foundImage, copied⟩ := copiedTo.exists_image reached found
      rw [ih, get?, found, Option.some.injEq] at foundImage
      have unmoved : decl.form.children.map place = decl.form.children.map fun other => other := by
        rw [← DeclForm.children_rename copy.substitution.apply, ← copied.form, ← foundImage,
          List.map_id']
      exact List.map_inj_left.1 unmoved _ listed
  constructor
  · have order : tree.postorder.map place = tree.postorder := by
      conv_rhs => rw [← List.map_id tree.postorder]
      apply List.map_congr_left
      intro id inside
      exact fixed id ((mem_preorder_iff fits).1 ((postorder_perm fits).mem_iff.1 inside))
    rw [← order, ← copiedTo.postorder fits fitsCopy, normal.numbered, size, same.decls]
    rfl
  · constructor
    · intro root top decl found
      rw [← get?] at found
      exact normal.nested.roots root (same.roots ▸ top) decl found
    · intro parent decl child inner reached found listed foundChild
      have reachedCopy := copiedTo.reachable reached
      rw [fixed parent reached] at reachedCopy
      rw [← get?] at found foundChild
      exact normal.nested.children parent decl child inner reachedCopy found listed foundChild

section Normal

variable {owners : List (SymbolId × DeclId)} (indexed : tree.Indexed owners) (normal : tree.Normal)

include indexed normal

theorem Normal.placeIn_eq {id : DeclId} (reached : tree.Reachable id) :
    id.placeIn tree.postorder = id := by
  have inside := (indexed.mem_postorder id).2 reached
  obtain ⟨index, bound, same⟩ := List.getElem_of_mem inside
  have place := indexed.nodup.idxOf_getElem index bound
  have number : tree.postorder[index] = ⟨index⟩ := by simp [normal.numbered]
  rw [same] at place number
  rw [DeclId.placeIn, place, number]

theorem Normal.rename_eq {id : DeclId} {decl : Decl} (reached : tree.Reachable id)
    (found : tree.get? id = some decl) :
    decl.form.rename (Substitution.identity tree.symbolsInUse).apply
      (DeclId.placeIn tree.postorder) = decl.form := by
  apply DeclForm.rename_eq_self
  intro occurrence inside
  cases occurrence with
  | symbol symbol => simp [Occurrence.rename]
  | decl child =>
    have listed : child ∈ decl.form.children := by
      rw [← DeclForm.decls_of_occurrences, List.mem_filterMap]
      exact ⟨.decl child, inside, rfl⟩
    rw [Occurrence.rename, normal.placeIn_eq indexed (reached.child found listed)]

/-- Copying a normal tree so that every symbol stays gives its arena and its roots again. -/
theorem Normal.sameArena (id : TreeId) : tree.SameArena (tree.identityCopy id).tree := by
  have roots : (tree.identityCopy id).tree.roots = tree.roots := by
    change tree.roots.map (DeclId.placeIn tree.postorder) = tree.roots
    conv_rhs => rw [← List.map_id' tree.roots]
    apply List.map_congr_left
    intro root top
    exact normal.placeIn_eq indexed (.root top)
  refine ⟨?_, roots⟩
  have size : (tree.identityCopy id).tree.size = tree.size := by
    have order : tree.postorder.length = tree.size := by simp [normal.numbered]
    rw [← order]
    exact size_renamed indexed id _
  apply Array.ext_getElem?
  intro index
  change (tree.identityCopy id).tree.get? ⟨index⟩ = tree.get? ⟨index⟩
  by_cases inside : index < tree.size
  · have reached : tree.Reachable ⟨index⟩ := by
      rw [← indexed.mem_postorder, normal.numbered]
      simpa using inside
    obtain ⟨decl, found⟩ := indexed.known _ ((indexed.mem_postorder _).2 reached)
    have place := normal.placeIn_eq indexed reached
    have form := normal.rename_eq indexed reached found
    rcases normal.nested.root_or_listed reached found with
      ⟨top, outside⟩ | ⟨parent, around, reachedParent, foundParent, listed, within⟩
    · have here := get?_renamed_of_root indexed id (.identity tree.symbolsInUse) top found
      rw [place, Decl.rename, form, Substitution.apply_identity, ← outside] at here
      rw [found]
      exact here
    · have here := get?_renamed_of_child indexed id (.identity tree.symbolsInUse) reachedParent
        foundParent listed found
      rw [place, normal.placeIn_eq indexed reachedParent, Decl.rename, form,
        Substitution.apply_identity, Decl.within, ← within] at here
      rw [found]
      exact here
  · have outside : tree.get? ⟨index⟩ = none := by
      simpa [DeclTree.get?, DeclTree.size] using inside
    rw [outside]
    rw [← size] at inside
    simpa [DeclTree.get?, DeclTree.size] using inside

end Normal

/-- A copy in which every symbol stays declares every symbol once, as the tree does. -/
theorem Copied.exists_declared {before after : CopyState σ} {copy : Copy}
    {owners : List (SymbolId × DeclId)} (copied : tree.Copied .keep before copy after owners)
    (kept : ∀ symbol, copy.substitution.apply symbol = symbol) :
    ∃ owners, copy.tree.declared = .ok owners := by
  have copiedTo := copied.copiedTo
  have apart : copy.tree.OwnsApart copy.tree.preorder := by
    intro first _ second _ image other found foundOther same
    obtain ⟨id, decl, reached, rfl, foundDecl, copiedAs⟩ := copiedTo.exists_source found
    obtain ⟨id', decl', reached', rfl, foundDecl', copiedAs'⟩ := copiedTo.exists_source foundOther
    rw [copiedAs.symbol, copiedAs'.symbol, kept, kept] at same
    rw [copied.indexed.owner_unique reached reached' foundDecl foundDecl' same]
  exact exists_declared_iff.2 ⟨copiedTo.closed, nodup_owned copied.laidOut.nodup apart⟩

/-- If nothing under the roots is transformed, a copy is the one in which every symbol stays. -/
theorem eq_identityCopy_of_copy {predicate : TypePredicate} {before after : RelabelState} {copy : Copy}
    (run : (tree.copy predicate).run before = .ok copy after)
    (untransformed : ∀ id, tree.Reachable id →
      ¬(Judge.mk tree predicate).Finds before.symbols id true) :
    copy = tree.identityCopy before.symbols.takeTree.1 ∧
      after.symbols = before.symbols.takeTree.2 ∧ ∃ owners, tree.declared = .ok owners := by
  obtain ⟨last, walked, rfl⟩ := copy_run_eq_ok_iff.1 run
  obtain ⟨owners, copied⟩ := exists_copied_of_copyWith walked
  have keeps : before.symbols.Keeps before.symbols.takeTree.2 := .refl before.symbols
  have ruled (old : SymbolId) (id : DeclId) (owner : owners.lookup old = some id) :
      (Judge.mk tree predicate).ruling before.symbols.takeTree.2 id ≠ .ok true := by
    intro transformed
    obtain ⟨reached, -⟩ := (copied.indexed.lookup old id).1 owner
    exact untransformed id reached (Judge.finds_iff.2 (keeps.ruling_eq_ok transformed))
  obtain ⟨entries, table⟩ :=
    Chooser.entries_of_untransformed (Judge.recalls_empty _) ruled copied.entries
  have substitution : copy.substitution = .identity tree.symbolsInUse :=
    congrArg Substitution.mk entries
  refine ⟨?_, table, owners, copied.declared⟩
  have renamed := copied.renamed
  rw [substitution] at renamed
  cases copy
  simp only at renamed substitution
  rw [renamed, substitution]
  rfl

/-- A copy in which every symbol stays is a normal form of what is under the roots: it is what copying it
once more gives, and it is the tree itself iff that is normal. A copy of a tree in which nothing is
transformed is this copy. -/
theorem identityCopy_of_copyWith (tree : DeclTree) :
    (∀ (σ : Type) (before after : CopyState σ) copy,
      (tree.copyWith .keep).run before = .ok copy after →
      (∀ old new, copy.substitution.get? old = some new → new = old) ∧
      after.symbols = before.symbols.takeTree.2 ∧
      (∀ (τ : Type) (start : CopyState τ), ∃ again last,
        (copy.tree.copyWith .keep).run start = .ok again last ∧ copy.tree.SameArena again.tree) ∧
      (tree.SameArena copy.tree ↔ tree.Normal)) ∧
    ∀ predicate before after copy, (tree.copy predicate).run before = .ok copy after →
      (∀ id, tree.Reachable id → ¬(Judge.mk tree predicate).Finds before.symbols id true) →
      after.symbols = before.symbols.takeTree.2 ∧
      ∀ (σ : Type) (start : CopyState σ), ∃ same last,
        (tree.copyWith .keep).run start = .ok same last ∧ same.tree.SameArena copy.tree ∧
          copy.substitution = same.substitution := by
  constructor
  · intro σ before after copy run
    obtain ⟨owners, copied⟩ := exists_copied_of_copyWith run
    obtain ⟨same, table⟩ := eq_identityCopy_of_copyWith run
    refine ⟨?_, table, ?_, ?_⟩
    · intro old new found
      rw [same] at found
      exact Substitution.eq_of_get?_identity found
    · intro τ start
      have kept (symbol : SymbolId) : copy.substitution.apply symbol = symbol := by
        rw [same]
        exact Substitution.apply_identity _ symbol
      obtain ⟨owners', declared⟩ := copied.exists_declared kept
      obtain ⟨asked, again⟩ := copyWith_keep_run declared start
      exact ⟨_, _, again, copied.normal.sameArena (indexed_of_declared declared) _⟩
    · constructor
      · exact copied.copiedTo.normal_of_same copied.normal copied.indexed.fits copied.laidOut.fits
      · intro normal
        rw [same]
        exact normal.sameArena copied.indexed _
  · intro predicate before after copy run untransformed
    obtain ⟨same, table, declared⟩ := eq_identityCopy_of_copy run untransformed
    obtain ⟨owners, declared⟩ := declared
    refine ⟨table, fun σ start => ?_⟩
    obtain ⟨asked, kept⟩ := copyWith_keep_run declared start
    refine ⟨_, _, kept, ?_, ?_⟩
    · rw [same]
      exact sameArena_identityCopy tree _ _
    · rw [same]
      rfl

/-- The last declaration of the sample is not under its roots, so its copy is another tree. -/
theorem identityCopy_of_copyWith_sample : ∃ copy after,
    (sample.copy (.marked ⟨77⟩)).run ⟨sampleSymbols, []⟩ = .ok copy after ∧
      after.symbols = sampleSymbols.takeTree.2 ∧ ¬sample.SameArena copy.tree ∧
      ∃ same last, (sample.copyWith .keep).run ⟨sampleSymbols, (), []⟩ = .ok same last ∧
        same.tree.SameArena copy.tree ∧
        ∃ again final, (same.tree.copyWith .keep).run last = .ok again final ∧
          same.tree.SameArena again.tree := by
  have done : (sample.copy (.marked ⟨77⟩)).succeeds ⟨sampleSymbols, []⟩ = true := by decide +kernel
  obtain ⟨copy, after, run⟩ := Pass.succeeds_eq_true_iff.1 done
  have rulings : ∀ index ∈ List.range 9,
      (Judge.mk sample (.marked ⟨77⟩)).ruling sampleSymbols ⟨index⟩ ≠ .ok true := by decide +kernel
  have untransformed (id : DeclId) (reached : sample.Reachable id) :
      ¬(Judge.mk sample (.marked ⟨77⟩)).Finds sampleSymbols id true := by
    intro transformed
    obtain ⟨decl, -, found, -⟩ := (copiedTo_of_copy run).decls id reached
    exact rulings id.index (lt_of_get?_sample found) (Judge.finds_iff.1 transformed)
  obtain ⟨keeps, unchanged⟩ := identityCopy_of_copyWith sample
  obtain ⟨table, same⟩ := unchanged (.marked ⟨77⟩) _ after copy run untransformed
  obtain ⟨same, last, kept, arena, -⟩ := same Unit ⟨sampleSymbols, (), []⟩
  obtain ⟨-, -, again, iff⟩ := keeps Unit _ last same kept
  obtain ⟨again, final, once, sameAgain⟩ := again Unit last
  refine ⟨copy, after, run, table, ?_, same, last, kept, arena, again, final, once, sameAgain⟩
  intro unmoved
  have normal := iff.1 ⟨arena.decls ▸ unmoved.decls, arena.roots ▸ unmoved.roots⟩
  have short : sample.postorder.length = 8 := by decide +kernel
  have long : sample.size = 9 := rfl
  rw [normal.numbered, long] at short
  simp at short

end DeclTree

end Relabel
