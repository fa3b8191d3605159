import Relabel.Proofs.Tree.Walking

namespace Relabel.DeclTree

variable {tree : DeclTree}

/-- All of these declarations are in the tree, and no two of them own one symbol. -/
structure Sound (tree : DeclTree) (ids : List DeclId) : Prop where
  known : ∀ id ∈ ids, ∃ decl, tree.get? id = some decl
  distinct : ((tree.owned ids).map Prod.fst).Nodup

/-- What is wrong with the first declaration that a walk from the roots meets where it cannot go on:
it is not in the tree, or its symbol is owned by one met before. -/
inductive Fault (tree : DeclTree) : PassError → Prop where
  | unknown {met rest : List DeclId} {id : DeclId} (walks : tree.Walks tree.roots met (id :: rest))
    (sound : tree.Sound met) (missing : tree.get? id = none) :
    Fault tree (.inTree (.unknownDecl tree.id id))
  | repeated {met rest : List DeclId} {first id : DeclId} {earlier decl : Decl}
    (walks : tree.Walks tree.roots met (id :: rest)) (sound : tree.Sound met)
    (found : tree.get? id = some decl) (before : first ∈ met)
    (foundFirst : tree.get? first = some earlier) (same : earlier.symbol = decl.symbol) :
    Fault tree (.declaredTwice decl.symbol first id)

/-- However far a walk from the roots goes, it meets no unknown declaration and no symbol twice. -/
def Faultless (tree : DeclTree) : Prop :=
  ∀ met left, tree.Walks tree.roots met left → tree.Sound met

namespace Sound

variable {ids : List DeclId}

theorem length_le (sound : tree.Sound ids) : ids.length ≤ tree.size :=
  length_le_size (nodup_of_owned sound.known sound.distinct) sound.known

theorem left {more : List DeclId} (sound : tree.Sound (ids ++ more)) : tree.Sound ids where
  known id inside := sound.known id (List.mem_append_left more inside)
  distinct := by
    have both := sound.distinct
    rw [owned, List.filterMap_append, List.map_append, List.nodup_append] at both
    exact both.1

theorem lookup_owned {symbol : SymbolId} {id : DeclId} (sound : tree.Sound ids) :
    (tree.owned ids).reverse.lookup symbol = some id ↔
      id ∈ ids ∧ ∃ decl, tree.get? id = some decl ∧ decl.symbol = symbol := by
  have distinct := sound.distinct
  rw [← List.nodup_reverse, ← List.map_reverse] at distinct
  rw [lookup_eq_some_iff_mem distinct, List.mem_reverse, mem_owned_iff]

end Sound

section Noting

variable {ids : List DeclId} {before after : List (SymbolId × DeclId)}

theorem noteOwner_run_eq_error_iff {id : DeclId} {error : PassError} :
    (tree.noteOwner id).run before = .error error after ↔ after = before ∧
      ((tree.get? id = none ∧ error = .inTree (.unknownDecl tree.id id)) ∨
        ∃ decl first, tree.get? id = some decl ∧ before.lookup decl.symbol = some first ∧
          error = .declaredTwice decl.symbol first id) := by
  cases found : tree.get? id with
  | none =>
    have refused : (tree.noteOwner id).run before =
        .error (.inTree (.unknownDecl tree.id id)) before := by
      rw [noteOwner, EStateM.run_bind, Pass.decl, DeclTree.get, found]
      rfl
    rw [refused]
    simp [eq_comm, and_comm]
  | some decl =>
    rw [noteOwner, Pass.decl_eq_pure found, pure_bind]
    simp only [EStateM.run_bind, EStateM.run_get]
    cases owner : before.lookup decl.symbol with
    | none =>
      constructor
      · intro run
        cases run
      · rintro ⟨-, ⟨absent, -⟩ | ⟨other, first, same, owned, -⟩⟩
        · cases absent
        · obtain rfl := Option.some.inj same
          rw [owner] at owned
          cases owned
    | some first =>
      constructor
      · intro run
        obtain ⟨rfl, rfl⟩ := EStateM.Result.error.inj run
        exact ⟨rfl, .inr ⟨decl, first, rfl, owner, rfl⟩⟩
      · rintro ⟨rfl, ⟨absent, -⟩ | ⟨other, earlier, same, owned, rfl⟩⟩
        · cases absent
        · obtain rfl := Option.some.inj same
          obtain rfl := Option.some.inj (owner.symm.trans owned)
          rfl

theorem noteOwner_refuses (id : DeclId) (missing : tree.get? id = none)
    (before : List (SymbolId × DeclId)) :
    ∃ error after, (tree.noteOwner id).run before = .error error after :=
  ⟨_, _, noteOwner_run_eq_error_iff.2 ⟨rfl, .inl ⟨missing, rfl⟩⟩⟩

theorem known_of_forM_noteOwner (run : (ids.forM tree.noteOwner).run before = .ok () after) :
    ∀ id ∈ ids, ∃ decl, tree.get? id = some decl := by
  rw [List.forM_eq_forM] at run
  induction ids generalizing before with
  | nil => exact fun _ inside => nomatch inside
  | cons id ids ih =>
    rw [List.forM_cons, Pass.run_bind_eq_ok_iff] at run
    obtain ⟨⟨⟩, middle, first, rest⟩ := run
    obtain ⟨decl, found, -⟩ := noteOwner_run_eq_ok_iff.1 first
    exact List.forall_mem_cons.2 ⟨⟨decl, found⟩, ih rest⟩

/-- Owners are noted as long as nothing is wrong. -/
theorem forM_noteOwner_run_nil_eq_ok_iff : (ids.forM tree.noteOwner).run [] = .ok () after ↔
    tree.Sound ids ∧ after = (tree.owned ids).reverse := by
  have none : (([] : List (SymbolId × DeclId)).map Prod.fst).Nodup := List.nodup_nil
  have noted (known : ∀ id ∈ ids, ∃ decl, tree.get? id = some decl) :
      (ids.forM tree.noteOwner).run [] = .ok () after ↔
        after = (tree.owned ids).reverse ++ [] ∧ (after.map Prod.fst).Nodup :=
    forM_noteOwner_run_eq_ok_iff known none
  constructor
  · intro run
    have known := known_of_forM_noteOwner run
    obtain ⟨rfl, distinct⟩ := (noted known).1 run
    rw [List.append_nil] at distinct ⊢
    rw [List.map_reverse, List.nodup_reverse] at distinct
    exact ⟨⟨known, distinct⟩, rfl⟩
  · rintro ⟨sound, rfl⟩
    refine (noted sound.known).2 ⟨(List.append_nil _).symm, ?_⟩
    rw [List.map_reverse, List.nodup_reverse]
    exact sound.distinct

/-- A fault is what stops the noting of owners. -/
theorem fault_iff {error : PassError} : tree.Fault error ↔
    ∃ met id rest, tree.Walks tree.roots met (id :: rest) ∧ tree.Sound met ∧
      (tree.noteOwner id).run (tree.owned met).reverse = .error error (tree.owned met).reverse := by
  simp only [noteOwner_run_eq_error_iff, true_and]
  constructor
  · intro fault
    cases fault with
    | unknown walks sound missing => exact ⟨_, _, _, walks, sound, .inl ⟨missing, rfl⟩⟩
    | repeated walks sound found before foundFirst same =>
      refine ⟨_, _, _, walks, sound, .inr ⟨_, _, found, ?_, rfl⟩⟩
      exact sound.lookup_owned.2 ⟨before, _, foundFirst, same⟩
  · rintro ⟨met, id, rest, walks, sound, ⟨missing, rfl⟩ | ⟨decl, first, found, owner, rfl⟩⟩
    · exact .unknown walks sound missing
    · obtain ⟨before, earlier, foundFirst, same⟩ := sound.lookup_owned.1 owner
      exact .repeated walks sound found before foundFirst same

end Noting

/-- The walk that looks for the owners, with its own bound on the depth. -/
def declaredTo (tree : DeclTree) (depth : Nat) : Except PassError (List (SymbolId × DeclId)) :=
  match (tree.roots.forM (tree.walkFrom (fun _ => true) tree.noteOwner depth)).run [] with
  | .ok _ owners => .ok owners
  | .error error _ => .error error

section Ending

variable {depth : Nat}

theorem not_goesOn_noteOwner (le : tree.maxDepth ≤ depth) (pending : List DeclId) :
    ¬tree.GoesOn tree.noteOwner pending [] depth := by
  rintro ⟨met, left, after, -, visits, deep⟩
  have short := (forM_noteOwner_run_nil_eq_ok_iff.1 visits).1.length_le
  unfold maxDepth at le
  omega

theorem ends_noteOwner (tree : DeclTree) (le : tree.maxDepth ≤ depth) :
    tree.Ends tree.noteOwner tree.roots []
      ((tree.roots.forM (tree.walkFrom (fun _ => true) tree.noteOwner depth)).run []) :=
  ends_forM_walkFrom noteOwner_refuses tree.roots (not_goesOn_noteOwner le tree.roots)

theorem ends_walkAll_noteOwner (tree : DeclTree) :
    tree.Ends tree.noteOwner tree.roots [] ((tree.walkAll tree.noteOwner).run []) :=
  ends_noteOwner tree (Nat.le_refl tree.maxDepth)

/-- A walk that may go deeper finds the same. -/
theorem declaredTo_eq (le : tree.maxDepth ≤ depth) : tree.declaredTo depth = tree.declared := by
  rw [declaredTo, declared, (ends_noteOwner tree le).unique tree.ends_walkAll_noteOwner]
  rfl

/-- A tree has an index unless there is a fault, which is then the error. -/
theorem declared_eq_error_iff {error : PassError} :
    tree.declared = .error error ↔ tree.Fault error := by
  have ends := tree.ends_walkAll_noteOwner
  rw [fault_iff, declared]
  constructor
  · intro failed
    obtain ⟨met, left, middle, walks, visits, stops⟩ := ends
    generalize EStateM.run _ _ = ran at stops failed
    obtain ⟨sound, rfl⟩ := forM_noteOwner_run_nil_eq_ok_iff.1 visits
    cases stops with
    | done => exact nomatch failed
    | @failed next _ after cause fails rest =>
      obtain rfl := Except.error.inj failed
      obtain ⟨rfl, -⟩ := noteOwner_run_eq_error_iff.1 fails
      exact ⟨met, next, rest, walks, sound, fails⟩
  · rintro ⟨met, id, rest, walks, sound, fails⟩
    have visits := forM_noteOwner_run_nil_eq_ok_iff.2 ⟨sound, rfl⟩
    rw [ends.unique ⟨met, id :: rest, _, walks, visits, .failed fails rest⟩]

theorem Faultless.not_fault (faultless : tree.Faultless) (error : PassError) :
    ¬tree.Fault error := by
  intro fault
  obtain ⟨met, id, rest, walks, sound, fails⟩ := fault_iff.1 fault
  have soundNext := faultless _ _ (walks.trans (.visit (.stop _)))
  obtain ⟨_, noted, last⟩ :=
    forM_append_run_eq_ok_iff.1 (forM_noteOwner_run_nil_eq_ok_iff.2 ⟨soundNext, rfl⟩)
  obtain ⟨-, rfl⟩ := forM_noteOwner_run_nil_eq_ok_iff.1 noted
  rw [forM_singleton_run_eq_ok_iff, fails] at last
  exact nomatch last

/-- A tree has an index iff nothing that a walk from the roots meets is at fault. -/
theorem exists_declared_iff_faultless :
    (∃ owners, tree.declared = .ok owners) ↔ tree.Faultless := by
  constructor
  · rintro ⟨owners, declared⟩ met left walks
    obtain ⟨all, pending, middle, walksAll, visits, stops⟩ := tree.ends_walkAll_noteOwner
    have soundAll := (forM_noteOwner_run_nil_eq_ok_iff.1 visits).1
    unfold DeclTree.declared at declared
    generalize EStateM.run _ _ = ran at stops declared
    cases stops with
    | failed => exact nomatch declared
    | done =>
      rcases Nat.le_total met.length all.length with le | le
      · obtain ⟨next, rfl, -⟩ := walks.goesOn walksAll le
        exact soundAll.left
      · -- Nothing is left to visit after all of them.
        obtain ⟨next, rfl, onward⟩ := walksAll.goesOn walks le
        cases onward
        rwa [List.append_nil]
  · intro faultless
    cases declared : tree.declared with
    | ok owners => exact ⟨owners, rfl⟩
    | error error => exact absurd (declared_eq_error_iff.1 declared) (faultless.not_fault error)

end Ending

section Entries

/-- Notes that a declaration is entered, then the owner of its symbol. -/
def noteEntry (tree : DeclTree) (id : DeclId) :
    Pass (List DeclId × List (SymbolId × DeclId)) Unit := do
  modify fun (entered, owners) => (id :: entered, owners)
  Pass.within Prod.snd (fun owners state => (state.1, owners)) (tree.noteOwner id)

/-- The result of looking for the owners, and the declarations entered on the way, newest first. -/
def indexing (tree : DeclTree) (depth : Nat) :
    Except PassError (List (SymbolId × DeclId)) × List DeclId :=
  match (tree.roots.forM (tree.walkFrom (fun _ => true) tree.noteEntry depth)).run ([], []) with
  | .ok _ (entered, owners) => (.ok owners, entered)
  | .error error (entered, _) => (.error error, entered)

variable {depth : Nat}

theorem noteEntry_run (id : DeclId) (entered : List DeclId) (owners : List (SymbolId × DeclId)) :
    (tree.noteEntry id).run (entered, owners) =
      match (tree.noteOwner id).run owners with
      | .ok () owners => .ok () (id :: entered, owners)
      | .error error owners => .error error (id :: entered, owners) := by
  change EStateM.run (Pass.within Prod.snd (fun owners state => (state.1, owners))
    (tree.noteOwner id)) (id :: entered, owners) = _
  rw [Pass.run_within]
  cases (tree.noteOwner id).run owners <;> rfl

theorem noteEntry_refuses (id : DeclId) (missing : tree.get? id = none)
    (before : List DeclId × List (SymbolId × DeclId)) :
    ∃ error after, (tree.noteEntry id).run before = .error error after := by
  obtain ⟨error, after, refused⟩ := noteOwner_refuses id missing before.2
  refine ⟨error, (id :: before.1, after), ?_⟩
  rw [noteEntry_run, refused]

theorem forM_noteEntry_run_eq_ok {ids entered : List DeclId} {owners : List (SymbolId × DeclId)}
    {after : List DeclId × List (SymbolId × DeclId)}
    (run : (ids.forM tree.noteEntry).run (entered, owners) = .ok () after) :
    (ids.forM tree.noteOwner).run owners = .ok () after.2 ∧ after.1 = ids.reverse ++ entered := by
  simp only [List.forM_eq_forM] at run ⊢
  induction ids generalizing entered owners with
  | nil =>
    obtain ⟨-, rfl⟩ := EStateM.Result.ok.inj run
    exact ⟨rfl, rfl⟩
  | cons id ids ih =>
    rw [List.forM_cons, EStateM.run_bind, noteEntry_run] at run
    rw [List.forM_cons, EStateM.run_bind]
    cases noted : (tree.noteOwner id).run owners with
    | error error middle =>
      rw [noted] at run
      exact nomatch run
    | ok value middle =>
      rw [noted] at run
      obtain ⟨rest, listed⟩ := ih run
      refine ⟨rest, ?_⟩
      rw [listed, List.reverse_cons, List.append_assoc]
      rfl

theorem ends_noteEntry (le : tree.maxDepth ≤ depth) : tree.Ends tree.noteEntry tree.roots ([], [])
    ((tree.roots.forM (tree.walkFrom (fun _ => true) tree.noteEntry depth)).run ([], [])) := by
  refine ends_forM_walkFrom noteEntry_refuses tree.roots ?_
  rintro ⟨met, left, after, walks, visits, deep⟩
  exact not_goesOn_noteOwner le tree.roots
    ⟨met, left, after.2, walks, (forM_noteEntry_run_eq_ok visits).1, deep⟩

/-- Looking for the owners enters at most one declaration more than there are. -/
theorem length_indexing_le (le : tree.maxDepth ≤ depth) :
    (tree.indexing depth).2.length ≤ tree.size + 1 := by
  obtain ⟨met, left, ⟨entered, owners⟩, -, visits, stops⟩ := ends_noteEntry le
  obtain ⟨noted, rfl⟩ := forM_noteEntry_run_eq_ok visits
  have short := (forM_noteOwner_run_nil_eq_ok_iff.1 noted).1.length_le
  unfold indexing
  generalize EStateM.run _ _ = ran at stops ⊢
  cases stops with
  | done => simpa using Nat.le_succ_of_le short
  | failed fails rest =>
    rw [noteEntry_run] at fails
    split at fails
    · exact nomatch fails
    · obtain ⟨-, rfl⟩ := EStateM.Result.error.inj fails
      simpa using short

theorem indexing_fst (le : tree.maxDepth ≤ depth) : (tree.indexing depth).1 = tree.declared := by
  obtain ⟨met, left, ⟨entered, owners⟩, walks, visits, stops⟩ := ends_noteEntry le
  have noted := (forM_noteEntry_run_eq_ok visits).1
  have ends := tree.ends_walkAll_noteOwner
  unfold indexing declared
  generalize EStateM.run _ ([], []) = ran at stops ⊢
  cases stops with
  | done => rw [ends.unique ⟨met, [], owners, walks, noted, .done owners⟩]
  | @failed next _ after error fails rest =>
    rw [noteEntry_run] at fails
    split at fails
    · exact nomatch fails
    · next cause last failsNoting =>
      obtain ⟨rfl, rfl⟩ := EStateM.Result.error.inj fails
      rw [ends.unique ⟨met, next :: rest, owners, walks, noted, .failed failsNoting rest⟩]

end Entries

end Relabel.DeclTree
