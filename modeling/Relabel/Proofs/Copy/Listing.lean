import Relabel.Proofs.Copy.Settling
import Relabel.Proofs.Traversal

namespace Relabel

variable {σ : Type}

/-- Where a copied declaration goes: to its position in the order in which copies are made. -/
def DeclId.placeIn (order : List DeclId) (id : DeclId) : DeclId := ⟨order.idxOf id⟩

theorem DeclId.placeIn_of_prefix {order before : List DeclId} {id : DeclId} (nodup : order.Nodup)
    (listed : before ++ [id] <+: order) : id.placeIn order = ⟨before.length⟩ := by
  obtain ⟨after, rfl⟩ := listed
  rw [List.append_assoc, List.singleton_append] at nodup ⊢
  have new : id ∉ before := fun again =>
    (List.nodup_append.1 nodup).2.2 id again id List.mem_cons_self rfl
  rw [placeIn, List.idxOf_append_of_notMem new, List.idxOf_cons_self, Nat.add_zero]

namespace DeclTree

def addAll (tree : DeclTree) (decls : List Decl) : DeclTree :=
  decls.foldl (fun tree decl => (tree.add decl).2) tree

/-- The listed declarations with their symbols renamed, for a copy made in the given order. -/
def copies (tree : DeclTree) (substitution : Substitution) (order ids : List DeclId) : List Decl :=
  (ids.filterMap tree.get?).map (Decl.rename substitution.apply (DeclId.placeIn order))

/-- The tree with its symbols renamed and nothing but what is under the roots, each declaration after
those inside it. -/
def renamed (tree : DeclTree) (id : TreeId) (substitution : Substitution) : DeclTree :=
  { addAll { id } (tree.copies substitution tree.postorder tree.postorder) with
    roots := tree.roots.map (DeclId.placeIn tree.postorder) }

/-- Copies a tree without walking it: settles the symbols in use, each once, and renames. -/
def copyListed (tree : DeclTree) (choose : Chooser σ) : Pass (CopyState σ) Copy := do
  let declared ← Pass.ofResult tree.declared
  let id ← CopyState.takeTree
  let entries ← tree.symbolsInUse.eraseDups.mapM (choose.entry declared)
  pure ⟨tree.renamed id ⟨entries⟩, ⟨entries⟩⟩

theorem copyListed_run {tree : DeclTree} {owners : List (SymbolId × DeclId)}
    (declared : tree.declared = .ok owners) (choose : Chooser σ) (before : CopyState σ) :
    (tree.copyListed choose).run before =
      match (tree.symbolsInUse.eraseDups.mapM (choose.entry owners)).run
        { before with symbols := before.symbols.takeTree.2 } with
      | .ok entries after =>
        .ok ⟨tree.renamed before.symbols.takeTree.1 ⟨entries⟩, ⟨entries⟩⟩ after
      | .error error after => .error error after := by
  rw [copyListed, declared]
  change EStateM.run (tree.symbolsInUse.eraseDups.mapM (choose.entry owners) >>= fun entries =>
    pure (Copy.mk (tree.renamed before.symbols.takeTree.1 ⟨entries⟩) ⟨entries⟩))
    { before with symbols := before.symbols.takeTree.2 } = _
  rw [EStateM.run_bind]
  generalize EStateM.run (List.mapM _ _) _ = listed
  cases listed <;> rfl

theorem addAll_append (tree : DeclTree) (first second : List Decl) :
    tree.addAll (first ++ second) = (tree.addAll first).addAll second :=
  List.foldl_append

theorem size_addAll (tree : DeclTree) (decls : List Decl) :
    (tree.addAll decls).size = tree.size + decls.length := by
  induction decls generalizing tree with
  | nil => rfl
  | cons decl decls ih =>
    rw [addAll, List.foldl_cons]
    change ((tree.add decl).2.addAll decls).size = _
    rw [ih, size_add, List.length_cons]
    omega

theorem copies_append (tree : DeclTree) (substitution : Substitution)
    (order first second : List DeclId) : tree.copies substitution order (first ++ second) =
      tree.copies substitution order first ++ tree.copies substitution order second := by
  rw [copies, List.filterMap_append, List.map_append]
  rfl

theorem length_copies {tree : DeclTree} {ids : List DeclId}
    (known : ∀ id ∈ ids, ∃ decl, tree.get? id = some decl) (substitution : Substitution)
    (order : List DeclId) : (tree.copies substitution order ids).length = ids.length := by
  rw [copies, List.length_map, length_filterMap_of_known known]

end DeclTree

/-- The copy built so far is that of the declarations in `done`, whatever is settled later. -/
def Copying.Built (copying : Copying σ) (tree : DeclTree) (id : TreeId)
    (order roots done : List DeclId) : Prop :=
  ∀ final : Substitution, final.Extends copying.settling.settled →
    copying.out = { DeclTree.addAll { id } (tree.copies final order done) with roots }

namespace Copying

variable {tree : DeclTree} {id : TreeId} {order roots done : List DeclId}

theorem Built.of_extends {before after : Copying σ} (built : before.Built tree id order roots done)
    (extends_ : after.settling.settled.Extends before.settling.settled)
    (same : after.out = before.out) : after.Built tree id order roots done := by
  intro final later
  rw [same]
  exact built final (extends_.trans later)

theorem Built.size {copying : Copying σ} (built : copying.Built tree id order roots done)
    (known : ∀ id ∈ done, ∃ decl, tree.get? id = some decl) : copying.out.size = done.length := by
  rw [built _ (.refl _)]
  change (DeclTree.addAll _ _).size = _
  rw [DeclTree.size_addAll, DeclTree.length_copies known]
  exact Nat.zero_add _

end Copying

end Relabel
