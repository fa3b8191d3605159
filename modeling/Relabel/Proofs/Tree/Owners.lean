import Relabel.Proofs.Lookup
import Relabel.Proofs.Tree.Listing
import Relabel.Tree.Owners

namespace Relabel.DeclTree

variable {σ : Type} {tree : DeclTree}

private theorem forM_walkFrom_run_eq_ok_iff {visit : DeclId → Pass σ Unit} {depth : Nat}
    (each : ∀ (id : DeclId) (before after : σ),
      (tree.walkFrom (fun _ => true) visit depth id).run before = .ok () after ↔
        tree.Fits depth id ∧ ((tree.preorderFrom depth id).forM visit).run before = .ok () after)
    (ids : List DeclId) (before after : σ) :
    (ids.forM (tree.walkFrom (fun _ => true) visit depth)).run before = .ok () after ↔
      (∀ id ∈ ids, tree.Fits depth id) ∧
        ((ids.flatMap (tree.preorderFrom depth)).forM visit).run before = .ok () after := by
  simp only [List.forM_eq_forM] at each ⊢
  induction ids generalizing before with
  | nil => simp
  | cons id ids ih =>
    rw [List.forM_cons, Pass.run_bind_eq_ok_iff, List.flatMap_cons, List.forM_append,
      Pass.run_bind_eq_ok_iff, List.forall_mem_cons]
    constructor
    · rintro ⟨⟨⟩, middle, first, rest⟩
      obtain ⟨fits, first⟩ := (each id before middle).1 first
      obtain ⟨others, rest⟩ := (ih middle).1 rest
      exact ⟨⟨fits, others⟩, (), middle, first, rest⟩
    · rintro ⟨⟨fits, others⟩, ⟨⟩, middle, first, rest⟩
      exact ⟨(), middle, (each id before middle).2 ⟨fits, first⟩, (ih middle).2 ⟨others, rest⟩⟩

/-- A walk succeeds iff all that it meets is in the tree and the visits succeed, in preorder. -/
theorem walkFrom_run_eq_ok_iff {visit : DeclId → Pass σ Unit} (depth : Nat) (id : DeclId)
    (before after : σ) :
    (tree.walkFrom (fun _ => true) visit depth id).run before = .ok () after ↔
      tree.Fits depth id ∧ ((tree.preorderFrom depth id).forM visit).run before = .ok () after := by
  induction depth generalizing id before after with
  | zero =>
    constructor
    · intro h
      exact nomatch h
    · rintro ⟨fits, -⟩
      exact fits.elim
  | succ depth ih =>
    rw [walkFrom, Pass.run_bind_eq_ok_iff]
    simp only [if_true, Pass.run_bind_eq_ok_iff, Pass.run_decl_eq_ok_iff,
      forM_walkFrom_run_eq_ok_iff ih]
    constructor
    · rintro ⟨⟨⟩, middle, visited, decl, _, ⟨found, rfl⟩, below, rest⟩
      refine ⟨⟨decl, found, below⟩, ?_⟩
      rw [preorderFrom_of_get? found, List.forM_eq_forM, List.forM_cons, Pass.run_bind_eq_ok_iff]
      exact ⟨(), middle, visited, rest⟩
    · rintro ⟨⟨decl, found, below⟩, run⟩
      rw [preorderFrom_of_get? found, List.forM_eq_forM, List.forM_cons,
        Pass.run_bind_eq_ok_iff] at run
      obtain ⟨⟨⟩, middle, visited, rest⟩ := run
      exact ⟨(), middle, visited, decl, middle, ⟨found, rfl⟩, below, rest⟩

theorem walkAll_run_eq_ok_iff {visit : DeclId → Pass σ Unit} {before after : σ} :
    (tree.walkAll visit).run before = .ok () after ↔
      (∀ root ∈ tree.roots, tree.Fits tree.maxDepth root) ∧
        (tree.preorder.forM visit).run before = .ok () after :=
  forM_walkFrom_run_eq_ok_iff (walkFrom_run_eq_ok_iff _) tree.roots before after

section Fitting

variable {visit : DeclId → Pass σ Unit}

theorem forM_flatMap {step : DeclId → Pass σ Unit} {below : DeclId → List DeclId}
    {ids : List DeclId} (each : ∀ id ∈ ids, step id = (below id).forM visit) :
    ids.forM step = (ids.flatMap below).forM visit := by
  simp only [List.forM_eq_forM] at each ⊢
  induction ids with
  | nil => rfl
  | cons id ids ih =>
    have rest := ih fun other inside => each other (List.mem_cons_of_mem id inside)
    rw [List.forM_cons, List.flatMap_cons, List.forM_append, each id List.mem_cons_self, rest]

/-- Where all is in the tree, a walk is nothing but the visits in preorder. -/
theorem walkFrom_of_fits {depth : Nat} {id : DeclId} (fits : tree.Fits depth id) :
    tree.walkFrom (fun _ => true) visit depth id = (tree.preorderFrom depth id).forM visit := by
  induction depth generalizing id with
  | zero => exact fits.elim
  | succ depth ih =>
    obtain ⟨decl, found, below⟩ := fits
    rw [walkFrom, preorderFrom_of_get? found, Pass.decl_eq_pure found, pure_bind, if_pos rfl,
      forM_flatMap fun child listed => ih (below child listed)]
    rfl

theorem walkAll_of_fits (fits : ∀ root ∈ tree.roots, tree.Fits tree.maxDepth root) :
    tree.walkAll visit = tree.preorder.forM visit :=
  forM_flatMap fun root listed => walkFrom_of_fits (fits root listed)

end Fitting

/-- The symbols that the listed declarations own, with those declarations. -/
def owned (tree : DeclTree) (ids : List DeclId) : List (SymbolId × DeclId) :=
  ids.filterMap fun id => (tree.get? id).map fun decl => (decl.symbol, id)

theorem owned_cons {id : DeclId} {decl : Decl} (found : tree.get? id = some decl)
    (ids : List DeclId) : tree.owned (id :: ids) = (decl.symbol, id) :: tree.owned ids := by
  simp [owned, found]

theorem mem_owned_iff {ids : List DeclId} {symbol : SymbolId} {id : DeclId} :
    (symbol, id) ∈ tree.owned ids ↔
      id ∈ ids ∧ ∃ decl, tree.get? id = some decl ∧ decl.symbol = symbol := by
  simp only [owned, List.mem_filterMap, Option.map_eq_some_iff, Prod.mk.injEq]
  constructor
  · rintro ⟨id, inside, decl, found, rfl, rfl⟩
    exact ⟨inside, decl, found, rfl⟩
  · rintro ⟨inside, decl, found, rfl⟩
    exact ⟨id, inside, decl, found, rfl, rfl⟩

theorem length_owned {ids : List DeclId} (known : ∀ id ∈ ids, ∃ decl, tree.get? id = some decl) :
    (tree.owned ids).length = ids.length := by
  refine length_filterMap_of_known fun id inside => ?_
  obtain ⟨decl, found⟩ := known id inside
  rw [found]
  exact ⟨_, rfl⟩

theorem noteOwner_run_eq_ok_iff {id : DeclId} {before after : List (SymbolId × DeclId)} :
    (tree.noteOwner id).run before = .ok () after ↔
      ∃ decl, tree.get? id = some decl ∧ before.lookup decl.symbol = none ∧
        after = (decl.symbol, id) :: before := by
  simp only [noteOwner, Pass.run_bind_eq_ok_iff, Pass.run_decl_eq_ok_iff, EStateM.run_get,
    EStateM.Result.ok.injEq]
  constructor
  · rintro ⟨decl, _, ⟨found, rfl⟩, owners, _, ⟨rfl, rfl⟩, run⟩
    cases absent : before.lookup decl.symbol with
    | some first =>
      rw [absent] at run
      exact nomatch run
    | none =>
      rw [absent] at run
      exact ⟨decl, found, absent, (EStateM.Result.ok.inj run).2.symm⟩
  · rintro ⟨decl, found, absent, rfl⟩
    refine ⟨decl, before, ⟨found, rfl⟩, before, before, ⟨rfl, rfl⟩, ?_⟩
    rw [absent]
    rfl

/-- Noting owners succeeds iff no two own one symbol, and then all of them are noted. -/
theorem forM_noteOwner_run_eq_ok_iff {ids : List DeclId} {before after : List (SymbolId × DeclId)}
    (known : ∀ id ∈ ids, ∃ decl, tree.get? id = some decl) (distinct : (before.map Prod.fst).Nodup) :
    (ids.forM tree.noteOwner).run before = .ok () after ↔
      after = (tree.owned ids).reverse ++ before ∧ (after.map Prod.fst).Nodup := by
  rw [List.forM_eq_forM]
  induction ids generalizing before with
  | nil =>
    simp only [List.forM_nil, EStateM.run_pure, EStateM.Result.ok.injEq, true_and, owned,
      List.filterMap_nil, List.reverse_nil, List.nil_append]
    constructor
    · rintro rfl
      exact ⟨rfl, distinct⟩
    · rintro ⟨rfl, -⟩
      rfl
  | cons id ids ih =>
    obtain ⟨decl, found⟩ := known id (by simp)
    have others := fun other inside => known other (List.mem_cons_of_mem id inside)
    rw [List.forM_cons, Pass.run_bind_eq_ok_iff, owned_cons found, List.reverse_cons, List.append_assoc]
    constructor
    · rintro ⟨⟨⟩, middle, first, rest⟩
      obtain ⟨same, foundSame, absent, rfl⟩ := noteOwner_run_eq_ok_iff.1 first
      obtain rfl : decl = same := Option.some.inj (found.symm.trans foundSame)
      have still : (((decl.symbol, id) :: before).map Prod.fst).Nodup :=
        List.nodup_cons.2 ⟨lookup_eq_none_iff_forall_ne.1 absent, distinct⟩
      exact (ih others still).1 rest
    · rintro ⟨rfl, nodup⟩
      have still : (((decl.symbol, id) :: before).map Prod.fst).Nodup := by
        rw [List.map_append, List.nodup_append] at nodup
        exact nodup.2.1
      have absent := lookup_eq_none_iff_forall_ne.2 (List.nodup_cons.1 still).1
      have first := noteOwner_run_eq_ok_iff.2 ⟨decl, found, absent, rfl⟩
      exact ⟨(), _, first, (ih others still).2 ⟨rfl, nodup⟩⟩

/-- What the index of a tree says: everything under the roots is in the tree, once, and `owners` finds
for a symbol the declaration under the roots that owns it. -/
structure Indexed (tree : DeclTree) (owners : List (SymbolId × DeclId)) : Prop where
  fits : ∀ root ∈ tree.roots, tree.Fits tree.maxDepth root
  nodup : tree.postorder.Nodup
  mem_postorder : ∀ id, id ∈ tree.postorder ↔ tree.Reachable id
  lookup : ∀ symbol id, owners.lookup symbol = some id ↔
    tree.Reachable id ∧ ∃ decl, tree.get? id = some decl ∧ decl.symbol = symbol

theorem exists_get?_of_mem_preorder (fits : ∀ root ∈ tree.roots, tree.Fits tree.maxDepth root)
    {id : DeclId} (inside : id ∈ tree.preorder) : ∃ decl, tree.get? id = some decl := by
  obtain ⟨root, listed, inside⟩ := List.mem_flatMap.1 inside
  exact exists_get?_of_mem_preorderFrom (fits root listed) inside

theorem Indexed.known {owners : List (SymbolId × DeclId)} (indexed : tree.Indexed owners) :
    ∀ id ∈ tree.postorder, ∃ decl, tree.get? id = some decl := by
  intro id inside
  rw [(postorder_perm indexed.fits).mem_iff] at inside
  exact exists_get?_of_mem_preorder indexed.fits inside

theorem Indexed.nodup_preorder {owners : List (SymbolId × DeclId)} (indexed : tree.Indexed owners) :
    tree.preorder.Nodup :=
  (postorder_perm indexed.fits).nodup_iff.1 indexed.nodup

theorem Indexed.owner_unique {owners : List (SymbolId × DeclId)} (indexed : tree.Indexed owners)
    {first second : DeclId} {decl other : Decl} (reached : tree.Reachable first)
    (reachedSecond : tree.Reachable second) (found : tree.get? first = some decl)
    (foundSecond : tree.get? second = some other) (same : decl.symbol = other.symbol) :
    first = second := by
  have one := (indexed.lookup decl.symbol first).2 ⟨reached, decl, found, rfl⟩
  have two := (indexed.lookup decl.symbol second).2
    ⟨reachedSecond, other, foundSecond, same.symm⟩
  exact Option.some.inj (one.symm.trans two)

/-- Indexing succeeds iff the walk stays in the tree and meets no symbol twice. -/
theorem declared_eq_ok_iff {owners : List (SymbolId × DeclId)} : tree.declared = .ok owners ↔
    (∀ root ∈ tree.roots, tree.Fits tree.maxDepth root) ∧
      owners = (tree.owned tree.preorder).reverse ∧ (owners.map Prod.fst).Nodup := by
  have walked : tree.declared = .ok owners ↔
      (tree.walkAll tree.noteOwner).run [] = .ok () owners := by
    unfold declared
    cases (tree.walkAll tree.noteOwner).run [] <;> simp
  rw [walked, walkAll_run_eq_ok_iff]
  refine and_congr_right fun fits => ?_
  have known := fun id (inside : id ∈ tree.preorder) => exists_get?_of_mem_preorder fits inside
  rw [forM_noteOwner_run_eq_ok_iff known (by simp), List.append_nil]

theorem nodup_of_owned {ids : List DeclId} (known : ∀ id ∈ ids, ∃ decl, tree.get? id = some decl)
    (distinct : ((tree.owned ids).map Prod.fst).Nodup) : ids.Nodup := by
  induction ids with
  | nil => exact List.nodup_nil
  | cons id ids ih =>
    obtain ⟨decl, found⟩ := known id (by simp)
    rw [owned_cons found, List.map_cons, List.nodup_cons] at distinct
    refine List.nodup_cons.2 ⟨fun again => ?_, ?_⟩
    · exact distinct.1 (List.mem_map.2 ⟨_, mem_owned_iff.2 ⟨again, decl, found, rfl⟩, rfl⟩)
    · exact ih (fun other inside => known other (List.mem_cons_of_mem id inside)) distinct.2

theorem indexed_of_declared {owners : List (SymbolId × DeclId)} (done : tree.declared = .ok owners) :
    tree.Indexed owners := by
  obtain ⟨fits, rfl, distinct⟩ := declared_eq_ok_iff.1 done
  have known := fun id (inside : id ∈ tree.preorder) => exists_get?_of_mem_preorder fits inside
  have ids : tree.preorder.Nodup := by
    refine nodup_of_owned known ?_
    rwa [List.map_reverse, List.nodup_reverse] at distinct
  refine ⟨fits, (postorder_perm fits).nodup_iff.2 ids, fun id => ?_, fun symbol id => ?_⟩
  · rw [(postorder_perm fits).mem_iff, mem_preorder_iff fits]
  · rw [lookup_eq_some_iff_mem distinct, List.mem_reverse, mem_owned_iff, mem_preorder_iff fits]

section Arena

/-- Each declaration of the arena is listed once, in order. -/
theorem map_fst_owners (tree : DeclTree) :
    tree.owners.map Prod.fst = (List.range tree.size).map DeclId.mk := by
  have places : (tree.decls.toList.zipIdx.map Prod.snd).map DeclId.mk =
      (List.range tree.size).map DeclId.mk := by
    rw [List.zipIdx_map_snd, List.range_eq_range']
    rfl
  rw [← places, owners, List.map_map, List.map_map]
  rfl

/-- A declaration is listed with the symbol that it owns. -/
theorem mem_owners_iff {id : DeclId} {symbol : SymbolId} :
    (id, symbol) ∈ tree.owners ↔ ∃ decl, tree.get? id = some decl ∧ decl.symbol = symbol := by
  simp only [owners, List.mem_map, Prod.exists, List.mk_mem_zipIdx_iff_getElem?,
    Array.getElem?_toList, Prod.mk.injEq]
  constructor
  · rintro ⟨decl, index, found, rfl, rfl⟩
    exact ⟨decl, found, rfl⟩
  · rintro ⟨decl, found, rfl⟩
    exact ⟨decl, id.index, found, rfl, rfl⟩

/-- The index of a tree lists the owners that are under the roots. -/
theorem mem_declared_iff {owners : List (SymbolId × DeclId)} (done : tree.declared = .ok owners)
    {id : DeclId} {symbol : SymbolId} :
    (symbol, id) ∈ owners ↔ tree.Reachable id ∧ (id, symbol) ∈ tree.owners := by
  obtain ⟨fits, rfl, -⟩ := declared_eq_ok_iff.1 done
  rw [List.mem_reverse, mem_owned_iff, mem_preorder_iff fits, mem_owners_iff]

end Arena

end Relabel.DeclTree
