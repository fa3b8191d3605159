import Relabel.Proofs.Copy.Listing

namespace Relabel

variable {σ : Type}

/-- The copy goes on from `before` to `after`: `settling` is what is settled, and what was settled
before stays. -/
structure Copying.Reaches (tree : DeclTree) (id : TreeId) (order roots done : List DeclId)
    (before after : Copying σ) (settling : Settling σ) : Prop where
  same : after.settling = settling
  later : settling.settled.Extends before.settling.settled
  built : after.Built tree id order roots done

namespace Copier

variable {copier : Copier σ} {id : TreeId} {order roots : List DeclId}

private theorem settle_alike {α : Type} (pass : Pass (Settling σ) α) (before : Copying σ) :
    Pass.Alike
      (fun a after b settling => after = { before with settling } ∧ a = b ∧
        pass.run before.settling = .ok a settling)
      (fun after settling => after.settling = settling)
      ((Copying.settle pass).run before) (pass.run before.settling) := by
  rw [Copying.settle, Pass.run_within]
  cases run : pass.run before.settling with
  | ok a settling => exact .ok ⟨rfl, rfl, rfl⟩
  | error error settling => exact .error rfl

/-- What one depth more is to know of the depth below: a declaration is copied, after those in
`done`, to its place in the order. -/
private def CopiesAt (copier : Copier σ) (id : TreeId) (order roots : List DeclId) (depth : Nat)
    (child : DeclId) : Prop :=
  ∀ (done : List DeclId) (before : Copying σ), before.Built copier.tree id order roots done →
    done ++ copier.tree.postorderFrom depth child <+: order →
    Pass.Alike
      (fun new after _ settling =>
        Copying.Reaches copier.tree id order roots (done ++ copier.tree.postorderFrom depth child)
          before after settling ∧ new = child.placeIn order)
      (fun after settling => after.settling = settling)
      ((copier.copyDecl depth child).run before)
      (((copier.tree.symbolsFrom depth child).forM copier.mention).run before.settling)

private theorem visit_alike (indexed : copier.tree.Indexed copier.declared) {depth : Nat}
    (occurrence : Occurrence)
    (below : ∀ child, .decl child = occurrence → copier.CopiesAt id order roots depth child)
    (done : List DeclId) (before : Copying σ) (built : before.Built copier.tree id order roots done)
    (listed : done ++ occurrence.decls (copier.tree.postorderFrom depth) <+: order) :
    Pass.Alike
      (fun image after _ settling =>
        Copying.Reaches copier.tree id order roots
          (done ++ occurrence.decls (copier.tree.postorderFrom depth)) before after settling ∧
        ∀ final : Substitution, final.Extends settling.settled →
          image = occurrence.rename final.apply (DeclId.placeIn order))
      (fun after settling => after.settling = settling)
      ((occurrence.visit (fun symbol => Copying.settle (copier.mentionedSymbol symbol))
        (copier.copyDecl depth)).run before)
      (((occurrence.symbols (copier.tree.symbolsFrom depth)).forM copier.mention).run
        before.settling) := by
  cases occurrence with
  | decl child =>
    rw [Occurrence.visit, map_eq_pure_bind]
    refine (below child rfl done before built listed).andThen ?_
    intro new after _ settling reached
    exact ⟨_, after, rfl, reached.1, fun _ _ => congrArg Occurrence.decl reached.2⟩
  | symbol symbol =>
    rw [Occurrence.visit, map_eq_pure_bind, Occurrence.symbols, List.forM_eq_forM, List.forM_cons,
      mention, bind_assoc]
    refine (settle_alike (copier.mentionedSymbol symbol) before).bind ?_
    intro new after _ settling related
    obtain ⟨rfl, rfl, run⟩ := related
    obtain ⟨later, found⟩ := settled_of_mentionedSymbol indexed run
    refine .ok ⟨⟨rfl, later, ?_⟩, fun final last => ?_⟩
    · rw [Occurrence.decls, List.append_nil]
      exact built.of_extends later rfl
    · rw [Occurrence.rename, Substitution.apply_eq_of_get? (last.get? found)]

private theorem mapM_visit_alike (indexed : copier.tree.Indexed copier.declared) {depth : Nat}
    (occurrences : List Occurrence)
    (below : ∀ child, .decl child ∈ occurrences → copier.CopiesAt id order roots depth child)
    (done : List DeclId) (before : Copying σ) (built : before.Built copier.tree id order roots done)
    (listed : done ++ occurrences.flatMap
      (Occurrence.decls (copier.tree.postorderFrom depth)) <+: order) :
    Pass.Alike
      (fun images after _ settling =>
        Copying.Reaches copier.tree id order roots
          (done ++ occurrences.flatMap (Occurrence.decls (copier.tree.postorderFrom depth)))
          before after settling ∧
        ∀ final : Substitution, final.Extends settling.settled →
          images = occurrences.map (Occurrence.rename final.apply (DeclId.placeIn order)))
      (fun after settling => after.settling = settling)
      ((occurrences.mapM (Occurrence.visit
        (fun symbol => Copying.settle (copier.mentionedSymbol symbol))
        (copier.copyDecl depth))).run before)
      (((occurrences.flatMap (Occurrence.symbols (copier.tree.symbolsFrom depth))).forM
        copier.mention).run before.settling) := by
  induction occurrences generalizing done before with
  | nil =>
    refine .ok ⟨⟨rfl, .refl _, ?_⟩, fun _ _ => rfl⟩
    rw [List.flatMap_nil, List.append_nil]
    exact built
  | cons occurrence occurrences ih =>
    rw [List.flatMap_cons, ← List.append_assoc] at listed ⊢
    rw [List.flatMap_cons, List.mapM_cons, List.forM_eq_forM, List.forM_append]
    have first := visit_alike indexed occurrence (fun child same => below child (by simp [same]))
      done before built ((List.prefix_append _ _).trans listed)
    refine first.bind ?_
    intro image middle _ settling reached
    obtain ⟨⟨rfl, later, builtMiddle⟩, renamed⟩ := reached
    refine (ih (fun child inside => below child (List.mem_cons_of_mem _ inside)) _ middle builtMiddle
      listed).andThen ?_
    intro images after _ settling reached
    obtain ⟨⟨rfl, laterStill, builtAfter⟩, renamedRest⟩ := reached
    refine ⟨image :: images, after, rfl, ⟨rfl, later.trans laterStill, builtAfter⟩, ?_⟩
    intro final last
    rw [List.map_cons, renamed final (laterStill.trans last), renamedRest final last]

/-- Adding the copy of one more declaration. -/
private theorem built_add {done : List DeclId} {child : DeclId} {decl : Decl} {copying : Copying σ}
    (built : copying.Built copier.tree id order roots done)
    (found : copier.tree.get? child = some decl) {image : Decl}
    (same : ∀ final : Substitution, final.Extends copying.settling.settled →
      image = decl.rename final.apply (DeclId.placeIn order)) :
    ({ copying with out := (copying.out.add image).2 } : Copying σ).Built copier.tree id order roots
      (done ++ [child]) := by
  intro final later
  have one : copier.tree.copies final order [child] = [image] := by
    rw [same final later, DeclTree.copies, List.filterMap_cons_some found]
    rfl
  rw [DeclTree.copies_append, one, DeclTree.addAll_append]
  change (copying.out.add image).2 = _
  rw [built final later]
  rfl

theorem copyDecl_alike (indexed : copier.tree.Indexed copier.declared) (nodup : order.Nodup)
    (known : ∀ id ∈ order, ∃ decl, copier.tree.get? id = some decl) (depth : Nat) (child : DeclId)
    (fits : copier.tree.Fits depth child) (reached : copier.tree.Reachable child) :
    copier.CopiesAt id order roots depth child := by
  induction depth generalizing child with
  | zero => exact fits.elim
  | succ depth ih =>
    obtain ⟨decl, found, below⟩ := fits
    intro done before built listed
    have inside (inner : DeclId) (occurs : Occurrence.decl inner ∈ decl.form.occurrences) :
        inner ∈ decl.form.children := by
      rw [← DeclForm.decls_of_occurrences, List.mem_filterMap]
      exact ⟨_, occurs, rfl⟩
    have parts : decl.form.occurrences.flatMap
        (Occurrence.decls (copier.tree.postorderFrom depth)) =
        decl.form.children.flatMap (copier.tree.postorderFrom depth) := by
      rw [Occurrence.flatMap_decls, DeclForm.decls_of_occurrences]
    rw [DeclTree.postorderFrom_of_get? found, ← parts, ← List.append_assoc] at listed ⊢
    rw [copyDecl, Pass.decl_eq_pure found, pure_bind, DeclTree.symbolsFrom_of_get? found, List.forM_eq_forM,
      List.forM_cons, mention, bind_assoc]
    have owner := settle_alike (copier.ownerSymbol child) before
    rw [ownerSymbol_run indexed reached found] at owner
    refine owner.bind ?_
    intro symbol _ symbol' settling related
    obtain ⟨rfl, rfl, settled⟩ := related
    obtain ⟨later, foundSymbol⟩ := settled_of_mentionedSymbol indexed settled
    have form := mapM_visit_alike indexed decl.form.occurrences
      (fun inner occurs => ih inner (below inner (inside inner occurs))
        (reached.child found (inside inner occurs))) done { before with settling }
      (built.of_extends later rfl) ((List.prefix_append _ _).trans listed)
    refine ((DeclForm.traverses decl.form).alike form).andThen ?_
    intro form' middle _ settling' related
    obtain ⟨images, refilled, ⟨rfl, laterStill, builtMiddle⟩, renamed⟩ := related
    have formRenamed (final : Substitution) (last : final.Extends middle.settling.settled) :
        form' = decl.form.rename final.apply (DeclId.placeIn order) :=
      refilled.renamed _ _ (renamed final last)
    have place : child.placeIn order = ⟨middle.out.size⟩ := by
      rw [builtMiddle.size fun id inside => known id (listed.subset (List.mem_append_left _ inside))]
      exact DeclId.placeIn_of_prefix nodup listed
    refine ⟨⟨middle.out.size⟩, _, rfl, ⟨rfl, later.trans laterStill, ?_⟩, place.symm⟩
    refine built_add builtMiddle found fun final last => ?_
    rw [Decl.rename, formRenamed final last,
      Substitution.apply_eq_of_get? ((laterStill.trans last).get? foundSymbol)]

private theorem copyRoot_alike (indexed : copier.tree.Indexed copier.declared) (nodup : order.Nodup)
    (known : ∀ id ∈ order, ∃ decl, copier.tree.get? id = some decl) (root : DeclId)
    (fits : copier.tree.Fits copier.tree.maxDepth root) (reached : copier.tree.Reachable root)
    (roots done : List DeclId) (before : Copying σ)
    (built : before.Built copier.tree id order roots done)
    (listed : done ++ copier.tree.postorderFrom copier.tree.maxDepth root <+: order) :
    Pass.Alike
      (fun _ after _ settling =>
        Copying.Reaches copier.tree id order (roots ++ [root.placeIn order])
          (done ++ copier.tree.postorderFrom copier.tree.maxDepth root) before after settling)
      (fun after settling => after.settling = settling)
      ((copier.copyRoot root).run before)
      (((copier.tree.symbolsFrom copier.tree.maxDepth root).forM copier.mention).run
        before.settling) := by
  have copied := copyDecl_alike indexed nodup known _ root fits reached done before built listed
  refine copied.andThen ?_
  intro new after _ settling related
  obtain ⟨⟨rfl, later, builtAfter⟩, rfl⟩ := related
  refine ⟨(), _, rfl, rfl, later, ?_⟩
  intro final last
  change after.out.addRoot _ = _
  rw [builtAfter final last]
  rfl

private theorem forM_copyRoot_alike (indexed : copier.tree.Indexed copier.declared)
    (nodup : order.Nodup) (known : ∀ id ∈ order, ∃ decl, copier.tree.get? id = some decl)
    (ids : List DeclId) (fits : ∀ root ∈ ids, copier.tree.Fits copier.tree.maxDepth root)
    (reached : ∀ root ∈ ids, copier.tree.Reachable root) (roots done : List DeclId)
    (before : Copying σ) (built : before.Built copier.tree id order roots done)
    (listed : done ++ ids.flatMap (copier.tree.postorderFrom copier.tree.maxDepth) <+: order) :
    Pass.Alike
      (fun _ after _ settling =>
        Copying.Reaches copier.tree id order (roots ++ ids.map (DeclId.placeIn order))
          (done ++ ids.flatMap (copier.tree.postorderFrom copier.tree.maxDepth)) before after settling)
      (fun after settling => after.settling = settling)
      ((ids.forM copier.copyRoot).run before)
      (((ids.flatMap (copier.tree.symbolsFrom copier.tree.maxDepth)).forM copier.mention).run
        before.settling) := by
  rw [List.forM_eq_forM, List.forM_eq_forM]
  induction ids generalizing roots done before with
  | nil =>
    refine .ok ⟨rfl, .refl _, ?_⟩
    rw [List.flatMap_nil, List.map_nil, List.append_nil, List.append_nil]
    exact built
  | cons root ids ih =>
    rw [List.flatMap_cons, ← List.append_assoc] at listed ⊢
    rw [List.map_cons, List.append_cons, List.forM_cons, List.flatMap_cons, List.forM_append]
    have first := copyRoot_alike indexed nodup known root (fits root (by simp))
      (reached root (by simp)) roots done before built ((List.prefix_append _ _).trans listed)
    refine first.bind ?_
    intro _ middle _ settling related
    obtain ⟨rfl, later, builtMiddle⟩ := related
    have rest := ih (fun other inside => fits other (List.mem_cons_of_mem _ inside))
      (fun other inside => reached other (List.mem_cons_of_mem _ inside)) _ _ middle builtMiddle
      listed
    refine rest.mono ?_ fun _ _ same => same
    intro _ after _ settling related
    exact ⟨related.same, later.trans related.later, related.built⟩

private theorem copyRoots_alike (copier : Copier σ) (indexed : copier.tree.Indexed copier.declared)
    (id : TreeId) (state : CopyState σ) :
    Pass.Alike
      (fun copy after entries state => after.settling.state = state ∧
        copy = ⟨copier.tree.renamed id ⟨entries⟩, ⟨entries⟩⟩)
      (fun after state => after.settling.state = state)
      (copier.copyRoots.run (.start id state))
      ((copier.tree.symbolsInUse.eraseDups.mapM
        (copier.choose.entry copier.declared)).run state) := by
  have copied := forM_copyRoot_alike indexed indexed.nodup indexed.known copier.tree.roots
    indexed.fits (fun root listed => .root listed) [] [] (.start id state) (fun _ _ => rfl)
    List.prefix_rfl
  have settled := forM_mention_alike indexed copier.tree.symbolsInUse { state }
  have all : ({} : Substitution).unsettled copier.tree.symbolsInUse =
      copier.tree.symbolsInUse.eraseDups :=
    congrArg List.eraseDups (List.filter_eq_self.2 fun _ _ => rfl)
  rw [all] at settled
  rw [copyRoots]
  refine ((copied.trans settled).mono (fun _ _ _ _ related => related) ?_).andThen ?_
  · intro after state related
    obtain ⟨settling, rfl, same⟩ := related
    exact same
  · intro _ after entries state related
    obtain ⟨-, settling, ⟨rfl, -, built⟩, settled⟩ := related
    refine ⟨⟨after.out, after.settling.settled⟩, after, rfl, by rw [settled], ?_⟩
    rw [built _ (.refl _), settled]
    rfl

end Copier

private theorem copyWith_run {tree : DeclTree} {owners : List (SymbolId × DeclId)}
    (declared : tree.declared = .ok owners) (choose : Chooser σ) (before : CopyState σ) :
    (tree.copyWith choose).run before =
      match (Copier.mk tree choose owners).copyRoots.run (.start before.symbols.takeTree.1
        { before with symbols := before.symbols.takeTree.2 }) with
      | .ok copy after => .ok copy after.settling.state
      | .error error after => .error error after.settling.state := by
  rw [DeclTree.copyWith, declared]
  change EStateM.run (Pass.within (Copying.start before.symbols.takeTree.1)
    (fun copying _ => copying.settling.state) (Copier.mk tree choose owners).copyRoots)
    { before with symbols := before.symbols.takeTree.2 } = _
  rw [Pass.run_within]
  generalize EStateM.run (Copier.copyRoots _) _ = copying
  cases copying <;> rfl

/-- Copying declaration by declaration, with what takes the place of a symbol settled when it is first
met, is renaming all of the tree at once with the symbols settled beforehand. -/
theorem DeclTree.copyWith_eq_copyListed (tree : DeclTree) (choose : Chooser σ) :
    tree.copyWith choose = tree.copyListed choose := by
  funext before
  change (tree.copyWith choose).run before = (tree.copyListed choose).run before
  cases declared : tree.declared with
  | error error => rw [copyWith, copyListed, declared]; rfl
  | ok owners =>
    have copied := Copier.copyRoots_alike ⟨tree, choose, owners⟩
      (indexed_of_declared declared) before.symbols.takeTree.1
      { before with symbols := before.symbols.takeTree.2 }
    rw [copyWith_run declared, copyListed_run declared]
    generalize EStateM.run (Copier.copyRoots _) _ = copying at copied ⊢
    generalize EStateM.run (List.mapM _ _) _ = listed at copied ⊢
    cases copied with
    | ok related =>
      obtain ⟨rfl, rfl⟩ := related
      rfl
    | error same =>
      subst same
      rfl

end Relabel
