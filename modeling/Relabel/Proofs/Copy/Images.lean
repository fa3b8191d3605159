import Relabel.Proofs.Copy.Layout
import Relabel.Proofs.Symbol.Claiming

namespace Relabel

namespace Symbol

/-- The symbol of the copy of a declaration: a stand-in if the declaration is transformed, unless
the symbol is that of a class. -/
def copied (symbol : Symbol) (transformed : Bool) : Symbol :=
  if transformed && symbol.kind.replaceable then symbol.standIn else symbol

theorem kind_copied (symbol : Symbol) (transformed : Bool) :
    (symbol.copied transformed).kind = symbol.kind := by
  unfold copied
  split <;> rfl

theorem isPlaceholder_copied (symbol : Symbol) (transformed : Bool) :
    (symbol.copied transformed).isPlaceholder =
      (symbol.isPlaceholder || (transformed && symbol.kind.replaceable)) := by
  cases moved : transformed && symbol.kind.replaceable <;>
    simp [copied, moved, isPlaceholder, standIn]

theorem isStandIn_copied (symbol : Symbol) (transformed : Bool) :
    (symbol.copied transformed).isStandIn =
      ((symbol.isPlaceholder || transformed) && symbol.kind.replaceable) := by
  rw [isStandIn, isPlaceholder_copied, kind_copied]
  cases symbol.kind.replaceable <;> simp

theorem isBound_copied (symbol : Symbol) (transformed : Bool) :
    (symbol.copied transformed).isBound =
      (symbol.isBound && !(transformed && symbol.kind.replaceable)) := by
  cases moved : transformed && symbol.kind.replaceable <;> simp [copied, moved, isBound, standIn]

end Symbol

/-- A placeholder that is found not transformed is owned by a class, which does not admit it. -/
theorem Judge.not_admits_of_ruling_false {judge : Judge} {symbols : SymbolTable} {id : DeclId}
    {decl : Decl} {symbol : Symbol} (ruled : judge.ruling symbols id = .ok false)
    (found : judge.tree.get? id = some decl) (known : symbols.get? decl.symbol = some symbol)
    (standIn : symbol.isStandIn = true) : decl.form.admits symbol.kind = false := by
  rw [Symbol.isStandIn, Bool.and_eq_true] at standIn
  have isClass := sort_of_ruling_false ruled found known standIn.1
  have other := Symbol.Kind.replaceable_eq_true_iff.1 standIn.2
  rw [← Bool.not_eq_true, DeclForm.admits_eq_true_iff, isClass]
  exact other.symm

namespace DeclTree

variable {tree : DeclTree} {predicate : TypePredicate}

theorem informed_of_arena {symbols : SymbolTable}
    (arena : ∀ id decl, tree.get? id = some decl → ∃ symbol, symbols.get? decl.symbol = some symbol)
    (id : DeclId) : (Judge.mk tree predicate).Informed symbols id :=
  ⟨fun decl => arena id decl, fun _ container around _ _ => arena container around⟩

/-- In a nested tree, it is enough that the symbols declared under the roots are known. -/
theorem informed_of_nested {symbols : SymbolTable} (nested : tree.Nested)
    (known : ∀ id decl, tree.Reachable id → tree.get? id = some decl →
      ∃ symbol, symbols.get? decl.symbol = some symbol)
    (id : DeclId) (reached : tree.Reachable id) :
    (Judge.mk tree predicate).Informed symbols id :=
  ⟨fun decl => known id decl reached, fun _ container around found inside =>
    known container around (nested.reachable_container reached found inside)⟩

/-- What a copy has made of a declaration with its symbol: the verdict on it, its copy, and the
symbol of that. -/
structure Imaged (tree : DeclTree) (predicate : TypePredicate) (before after : SymbolTable)
    (copy : Copy) (id : DeclId) (decl : Decl) (symbol : Symbol) (transformed : Bool)
    (image : Decl) : Prop where
  source : tree.get? id = some decl
  known : before.get? decl.symbol = some symbol
  ruled : (Judge.mk tree predicate).ruling before id = .ok transformed
  found : copy.tree.get? (id.placeIn tree.postorder) = some image
  copiedAs : decl.CopiedAs image copy.substitution (DeclId.placeIn tree.postorder)
  data : after.get? image.symbol = some (symbol.copied transformed)
  isReplaced : copy.substitution.isReplaced decl.symbol =
    (transformed && symbol.kind.replaceable)

namespace Imaged

variable {before after : SymbolTable} {copy : Copy} {id : DeclId} {decl : Decl} {symbol : Symbol}
  {transformed : Bool} {image : Decl}

theorem symbol_of_kept
    (imaged : tree.Imaged predicate before after copy id decl symbol transformed image)
    (kept : (transformed && symbol.kind.replaceable) = false) : image.symbol = decl.symbol := by
  obtain ⟨new, entry⟩ := imaged.copiedAs.settled decl.symbol List.mem_cons_self
  rw [imaged.copiedAs.symbol, Substitution.apply_eq_of_get? entry]
  by_contra differs
  have isReplaced := Substitution.isReplaced_eq_true_iff.2 ⟨new, entry, differs⟩
  rw [imaged.isReplaced, kept] at isReplaced
  exact nomatch isReplaced

theorem admits_eq
    (imaged : tree.Imaged predicate before after copy id decl symbol transformed image)
    (kind : Symbol.Kind) : image.form.admits kind = decl.form.admits kind := by
  rw [DeclForm.admits, DeclForm.admits, imaged.copiedAs.form, DeclForm.sort_rename]

end Imaged

section Run

variable {before after : RelabelState} {copy : Copy}
  (informed : ∀ id, tree.Reachable id → (Judge.mk tree predicate).Informed before.symbols id)
  (run : (tree.copy predicate).run before = .ok copy after)

include informed

theorem known_of_informed : ∀ id decl, tree.Reachable id → tree.get? id = some decl →
    ∃ symbol, before.symbols.get? decl.symbol = some symbol :=
  fun id decl reached => (informed id reached).own decl

include run

/-- A new judge tells what a copy makes of a declaration. -/
theorem exists_imaged {id : DeclId} {decl : Decl} {symbol : Symbol} (reached : tree.Reachable id)
    (found : tree.get? id = some decl) (known : before.symbols.get? decl.symbol = some symbol) :
    ∃ transformed image, tree.Imaged predicate before.symbols after.symbols copy id decl symbol
      transformed image := by
  obtain ⟨owners, replaced, copied⟩ := exists_selectivelyCopied (known_of_informed informed) run
  obtain ⟨transformed, ruled, new, entry, decided⟩ :=
    exists_ruling_of_informed run reached found known (informed id reached)
  obtain ⟨image, foundImage, same⟩ := copied.copiedTo.exists_image reached found
  have replacedIff : copy.substitution.isReplaced decl.symbol = true ↔
      transformed = true ∧ symbol.kind ≠ .cls := by
    rw [Substitution.isReplaced_eq_true_iff, ← decided]
    simp [entry]
  have isReplaced : copy.substitution.isReplaced decl.symbol =
      (transformed && symbol.kind.replaceable) := by
    rw [Bool.eq_iff_iff, replacedIff, Bool.and_eq_true, Symbol.Kind.replaceable, bne_iff_ne]
  refine ⟨transformed, image, found, known, ruled, foundImage, same, ?_, isReplaced⟩
  have allotted : image.symbol = decl.symbol.allotted before.symbols.size replaced := by
    rw [same.symbol, Substitution.apply_eq_of_get? entry]
    exact (copied.get?_eq_some_iff.1 entry).2
  have moved : decl.symbol ∈ replaced ↔ (transformed && symbol.kind.replaceable) = true := by
    rw [← copied.isReplaced_eq_true_iff, isReplaced]
  rw [allotted, copied.get?_allotted known, Symbol.copied]
  simp only [moved]

theorem exists_imaged_of_reachable {id : DeclId} (reached : tree.Reachable id) :
    ∃ decl symbol transformed image, tree.Imaged predicate before.symbols after.symbols copy id decl
      symbol transformed image := by
  obtain ⟨decl, -, found, -⟩ := (copiedTo_of_copy run).decls id reached
  obtain ⟨symbol, known⟩ := (informed id reached).own decl found
  obtain ⟨transformed, image, imaged⟩ := exists_imaged informed run reached found known
  exact ⟨decl, symbol, transformed, image, imaged⟩

end Run

end DeclTree

end Relabel
