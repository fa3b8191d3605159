import Relabel.Proofs.Copy.Isomorphism
import Relabel.Proofs.Tree.Fault

namespace Relabel

variable {σ : Type}

namespace Copier

variable {copier : Copier σ}

def copyRootTo (copier : Copier σ) (depth : Nat) (root : DeclId) : Pass (Copying σ) Unit := do
  let id ← copier.copyDecl depth root
  Copying.addRoot id

def copyRootsTo (copier : Copier σ) (depth : Nat) : Pass (Copying σ) Copy := do
  copier.tree.roots.forM (copier.copyRootTo depth)
  let copying ← get
  pure ⟨copying.out, copying.settling.settled⟩

/-- What fits is copied in the same way whatever the depth bound. -/
theorem copyDecl_of_fits {depth deeper : Nat} {id : DeclId} (fits : copier.tree.Fits depth id)
    (le : depth ≤ deeper) : copier.copyDecl deeper id = copier.copyDecl depth id := by
  induction depth generalizing deeper id with
  | zero => exact fits.elim
  | succ depth ih =>
    obtain ⟨decl, found, below⟩ := fits
    obtain ⟨more, rfl⟩ := Nat.exists_eq_add_of_le le
    have inside (child : DeclId) (listed : child ∈ decl.form.children) :
        copier.copyDecl (depth + more) child = copier.copyDecl depth child :=
      ih (below child listed) (Nat.le_add_right depth more)
    rw [Nat.add_right_comm, copyDecl, copyDecl, Pass.decl_eq_pure found, pure_bind, pure_bind,
      DeclForm.traverse_congr inside]

theorem copyRootsTo_of_fits {depth : Nat}
    (fits : ∀ root ∈ copier.tree.roots, copier.tree.Fits copier.tree.maxDepth root)
    (le : copier.tree.maxDepth ≤ depth) : copier.copyRootsTo depth = copier.copyRoots := by
  have each (root : DeclId) (listed : root ∈ copier.tree.roots) :
      copier.copyRootTo depth root = copier.copyRoot root := by
    rw [copyRootTo, copyRoot, copyDecl_of_fits (fits root listed) le]
  rw [copyRootsTo, copyRoots, forM_congr each]

end Copier

namespace Chooser

variable {choose : Chooser σ}

/-- The choice that was asked for last is one at which the chooser fails, and that is the error. -/
def Failed (choose : Chooser σ) (error : PassError) (after : CopyState σ) : Prop :=
  ∃ decl old earlier state, after.asked = (decl, old) :: earlier ∧
    (choose decl old).run state = .error error (after.symbols, after.memory)

/-- A chooser that makes any choice that it is asked for. -/
def Total (choose : Chooser σ) : Prop :=
  ∀ decl old state, ∃ new after, (choose decl old).run state = .ok new after

theorem Total.not_failed (total : choose.Total) (error : PassError) (after : CopyState σ) :
    ¬choose.Failed error after := by
  rintro ⟨decl, old, _, state, -, failed⟩
  obtain ⟨new, last, chosen⟩ := total decl old state
  rw [failed] at chosen
  exact nomatch chosen

theorem failed_of_ask {decl : DeclId} {old : SymbolId} {before after : CopyState σ}
    {error : PassError} (run : (choose.ask decl old).run before = .error error after) :
    choose.Failed error after := by
  obtain ⟨symbols, memory, failed, rfl⟩ := ask_run_eq_error_iff.1 run
  exact ⟨decl, old, before.asked, _, rfl, failed⟩

theorem failed_of_mapM_entry {owners : List (SymbolId × DeclId)} {symbols : List SymbolId}
    {before after : CopyState σ} {error : PassError}
    (run : (symbols.mapM (choose.entry owners)).run before = .error error after) :
    choose.Failed error after := by
  induction symbols generalizing before with
  | nil => cases run
  | cons old symbols ih =>
    rcases mapM_entry_cons_error run with settled | ⟨new, middle, -, rest⟩
    · unfold settle at settled
      split at settled
      · exact failed_of_ask settled
      · cases settled
    · exact ih rest

end Chooser

namespace DeclTree

variable {tree : DeclTree} {choose : Chooser σ}

/-- A copy with its own bound on how deep it may go. -/
def copyTo (tree : DeclTree) (depth : Nat) (choose : Chooser σ) : Pass (CopyState σ) Copy := do
  let declared ← Pass.ofResult (tree.declaredTo depth)
  let id ← CopyState.takeTree
  Pass.within (Copying.start id) (fun copying _ => copying.settling.state)
    ((Copier.mk tree choose declared).copyRootsTo depth)

/-- The bound of a copy never cuts it off: going deeper changes nothing. -/
theorem copyTo_eq {depth : Nat} (le : tree.maxDepth ≤ depth) (choose : Chooser σ) :
    tree.copyTo depth choose = tree.copyWith choose := by
  rw [copyTo, copyWith, declaredTo_eq le]
  cases declared : tree.declared with
  | error error => rfl
  | ok owners =>
    have fits := (indexed_of_declared declared).fits
    have same : (Copier.mk tree choose owners).copyRootsTo depth =
        (Copier.mk tree choose owners).copyRoots := Copier.copyRootsTo_of_fits fits le
    change (do
      let id ← CopyState.takeTree
      Pass.within (Copying.start id) (fun copying _ => copying.settling.state)
        ((Copier.mk tree choose owners).copyRootsTo depth)) = _
    rw [same]
    rfl

/-- A tree without an index is refused before anything has happened. -/
theorem copyWith_run_of_error {error : PassError} (declared : tree.declared = .error error)
    (choose : Chooser σ) (before : CopyState σ) :
    (tree.copyWith choose).run before = .error error before := by
  rw [copyWith, declared]
  rfl

/-- With an index, a copy fails only where its chooser does. -/
theorem failed_of_copyWith {owners : List (SymbolId × DeclId)} (declared : tree.declared = .ok owners)
    {before after : CopyState σ} {error : PassError}
    (run : (tree.copyWith choose).run before = .error error after) : choose.Failed error after := by
  rw [copyWith_eq_copyListed, copyListed_run declared] at run
  split at run
  · exact nomatch run
  · next cause state failed =>
    obtain ⟨rfl, rfl⟩ := EStateM.Result.error.inj run
    exact Chooser.failed_of_mapM_entry failed

/-- Every tree is copied, or refused for the first fault that a walk from its roots meets, after
entering at most one declaration more than there are. A tree without faults is copied unless the
chooser fails. -/
theorem copyWith_decided (tree : DeclTree) (choose : Chooser σ) (before : CopyState σ) :
    (∀ depth, tree.maxDepth ≤ depth → tree.copyTo depth choose = tree.copyWith choose ∧
      (tree.indexing depth).1 = tree.declared ∧
      (tree.indexing depth).2.length ≤ tree.size + 1) ∧
    (tree.Faultless ∨ ∃ error, tree.Fault error) ∧
    (∀ error, tree.Fault error → (tree.copyWith choose).run before = .error error before) ∧
    (tree.Faultless →
      (∀ error after, (tree.copyWith choose).run before = .error error after →
        choose.Failed error after) ∧
      (choose.Total → ∃ copy after, (tree.copyWith choose).run before = .ok copy after)) := by
  refine ⟨fun depth le => ⟨copyTo_eq le choose, indexing_fst le, length_indexing_le le⟩, ?_, ?_, ?_⟩
  · cases declared : tree.declared with
    | ok owners => exact .inl (exists_declared_iff_faultless.1 ⟨owners, declared⟩)
    | error error => exact .inr ⟨error, declared_eq_error_iff.1 declared⟩
  · intro error fault
    exact copyWith_run_of_error (declared_eq_error_iff.2 fault) choose before
  · intro faultless
    obtain ⟨owners, declared⟩ := exists_declared_iff_faultless.2 faultless
    have fails (error : PassError) (after : CopyState σ) :
        (tree.copyWith choose).run before = .error error after → choose.Failed error after :=
      failed_of_copyWith declared
    refine ⟨fails, fun total => ?_⟩
    cases run : (tree.copyWith choose).run before with
    | ok copy after => exact ⟨copy, after, rfl⟩
    | error error after => exact absurd (fails error after run) (total.not_failed error after)

/-- A class with a method that has the class inside. -/
def loop : DeclTree where
  id := ⟨0⟩
  roots := [⟨0⟩]
  decls := #[{ symbol := ⟨0⟩, form := .cls ⟨0⟩ [] none [⟨1⟩] },
    { symbol := ⟨1⟩, form := .function ⟨1⟩ [] none [] none (some [.decl ⟨0⟩]) }]

theorem copyWith_decided_loop :
    (loop.copyWith .keep).run ⟨sampleSymbols, (), []⟩ =
      .error (.declaredTwice ⟨0⟩ ⟨0⟩ ⟨0⟩) ⟨sampleSymbols, (), []⟩ := by
  obtain ⟨-, -, refused, -⟩ := copyWith_decided loop Chooser.keep ⟨sampleSymbols, (), []⟩
  have walks : loop.Walks loop.roots [⟨0⟩, ⟨1⟩] [⟨0⟩] := .visit (.visit (.stop [⟨0⟩]))
  have known : ∀ id ∈ [DeclId.mk 0, ⟨1⟩], ∃ decl, loop.get? id = some decl := by
    intro id inside
    have within : id.index < loop.size := by
      revert id
      decide
    exact Option.isSome_iff_exists.1 ((loop.get?_isSome_iff id).2 within)
  exact refused _ (.repeated walks ⟨known, by decide⟩ rfl List.mem_cons_self rfl rfl)

end DeclTree

end Relabel
