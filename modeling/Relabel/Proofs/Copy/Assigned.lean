import Relabel.Copy.Chooser
import Relabel.Proofs.Copy.Layout

namespace Relabel

variable {σ : Type} {tree : DeclTree} {owners : List (SymbolId × DeclId)}

/-- What listed choices put in the place of a symbol. -/
def Chooser.assigned (choices : List (DeclId × SymbolId)) (owners : List (SymbolId × DeclId))
    (old : SymbolId) : SymbolId :=
  match owners.lookup old with
  | some id => (choices.lookup id).getD old
  | none => old

namespace Chooser

/-- Every declaration keeps its symbol if none is listed. -/
theorem assign_nil : (assign [] : Chooser σ) = keep := rfl

theorem assigned_nil (owners : List (SymbolId × DeclId)) (old : SymbolId) :
    assigned [] owners old = old := by
  unfold assigned
  cases owners.lookup old <;> rfl

/-- To settle symbols by listed choices changes nothing but the record of what was asked. -/
theorem mapM_entry_assign_run (choices : List (DeclId × SymbolId))
    (owners : List (SymbolId × DeclId)) (symbols : List SymbolId) (before : CopyState σ) :
    ∃ asked, (symbols.mapM (entry (.assign choices) owners)).run before =
      .ok (symbols.map fun old => (old, assigned choices owners old)) { before with asked } := by
  induction symbols generalizing before with
  | nil => exact ⟨before.asked, rfl⟩
  | cons old symbols ih =>
    have settled : ∃ asked, ((assign choices : Chooser σ).settle owners old).run before =
        .ok (assigned choices owners old) { before with asked } := by
      unfold settle assigned
      cases owners.lookup old with
      | none => exact ⟨before.asked, rfl⟩
      | some id => exact ⟨(id, old) :: before.asked, rfl⟩
    obtain ⟨asked, first⟩ := settled
    obtain ⟨last, rest⟩ := ih { before with asked }
    refine ⟨last, ?_⟩
    rw [List.mapM_cons, EStateM.run_bind, entry, EStateM.run_bind, first]
    simp only [EStateM.run_pure, EStateM.run_bind, rest, List.map_cons]

end Chooser

namespace DeclTree

/-- The symbols of a tree, settled by listed choices. -/
def assignment (tree : DeclTree) (choices : List (DeclId × SymbolId))
    (owners : List (SymbolId × DeclId)) : Substitution :=
  ⟨tree.symbolsInUse.eraseDups.map fun old => (old, Chooser.assigned choices owners old)⟩

/-- A copy by listed choices takes nothing from the table but a number, and it succeeds whenever the
tree can be indexed. -/
theorem copyWith_assign_run (declared : tree.declared = .ok owners)
    (choices : List (DeclId × SymbolId)) (before : CopyState σ) :
    ∃ asked, (tree.copyWith (.assign choices)).run before =
      .ok ⟨tree.renamed before.symbols.takeTree.1 (tree.assignment choices owners),
          tree.assignment choices owners⟩
        { before with symbols := before.symbols.takeTree.2, asked } := by
  obtain ⟨asked, settled⟩ := Chooser.mapM_entry_assign_run choices owners
    tree.symbolsInUse.eraseDups { before with symbols := before.symbols.takeTree.2 }
  refine ⟨asked, ?_⟩
  rw [copyWith_eq_copyListed, copyListed_run declared, settled]
  rfl

/-- Every declaration under the roots gets the symbol that is listed with it, or keeps its own. -/
theorem get?_assignment (declared : tree.declared = .ok owners)
    (choices : List (DeclId × SymbolId)) {id : DeclId} {decl : Decl} (reached : tree.Reachable id)
    (found : tree.get? id = some decl) : (tree.assignment choices owners).get? decl.symbol =
      some ((choices.lookup id).getD decl.symbol) := by
  have indexed := indexed_of_declared declared
  have owner : owners.lookup decl.symbol = some id :=
    (indexed.lookup decl.symbol id).2 ⟨reached, decl, found, rfl⟩
  have inUse : decl.symbol ∈ tree.symbolsInUse :=
    (mem_symbolsInUse_iff indexed.fits).2 ⟨id, reached, decl, found, List.mem_cons_self⟩
  have chosen : Chooser.assigned choices owners decl.symbol =
      (choices.lookup id).getD decl.symbol := by
    rw [Chooser.assigned, owner]
  have keys : (tree.assignment choices owners).entries.map Prod.fst =
      tree.symbolsInUse.eraseDups := by
    rw [assignment, List.map_map]
    exact List.map_id _
  have distinct : ((tree.assignment choices owners).entries.map Prod.fst).Nodup :=
    keys ▸ nodup_eraseDups tree.symbolsInUse
  rw [← chosen]
  exact (lookup_eq_some_iff_mem distinct).2
    (List.mem_map.2 ⟨decl.symbol, List.mem_eraseDups.2 inUse, rfl⟩)

end DeclTree

end Relabel
