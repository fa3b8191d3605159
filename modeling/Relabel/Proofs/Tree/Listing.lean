import Mathlib.Data.List.Perm.Basic
import Relabel.Decl.Rename
import Relabel.Tree.Walk

namespace Relabel

namespace Occurrence

/-- The symbols at an occurrence, those below a declaration given by `below`. -/
def symbols (below : DeclId → List SymbolId) : Occurrence → List SymbolId
  | decl id => below id
  | symbol id => [id]

def decls (below : DeclId → List DeclId) : Occurrence → List DeclId
  | decl id => below id
  | symbol _ => []

theorem flatMap_decls (below : DeclId → List DeclId) (occurrences : List Occurrence) :
    occurrences.flatMap (decls below) = (occurrences.filterMap decl?).flatMap below := by
  induction occurrences with
  | nil => rfl
  | cons occurrence occurrences ih =>
    cases occurrence <;> simp [decls, decl?, List.filterMap_cons, ih]

theorem mem_flatMap_symbols {below : DeclId → List SymbolId} {occurrences : List Occurrence}
    {id : SymbolId} : id ∈ occurrences.flatMap (symbols below) ↔
      id ∈ occurrences.filterMap symbol? ∨ ∃ decl ∈ occurrences.filterMap decl?, id ∈ below decl := by
  induction occurrences with
  | nil => simp
  | cons occurrence occurrences ih =>
    rw [List.flatMap_cons, List.mem_append, ih]
    cases occurrence <;> simp [symbols, decl?, symbol?, List.filterMap_cons, or_assoc, or_left_comm]

end Occurrence

/-- The symbol that a declaration owns and those that it mentions. -/
def Decl.symbols (decl : Decl) : List SymbolId :=
  decl.symbol :: decl.form.occurrences.filterMap Occurrence.symbol?

namespace DeclTree

/-- The declarations under the roots. -/
inductive Reachable (tree : DeclTree) : DeclId → Prop where
  | root {id : DeclId} (listed : id ∈ tree.roots) : Reachable tree id
  | child {parent id : DeclId} {decl : Decl} (reached : Reachable tree parent)
    (found : tree.get? parent = some decl) (listed : id ∈ decl.form.children) : Reachable tree id

/-- All that is inside a declaration is in the tree, on paths of at most `depth` declarations. -/
def Fits (tree : DeclTree) : (depth : Nat) → DeclId → Prop
  | 0, _ => False
  | depth + 1, id =>
    ∃ decl, tree.get? id = some decl ∧ ∀ child ∈ decl.form.children, tree.Fits depth child

def preorderFrom (tree : DeclTree) : (depth : Nat) → DeclId → List DeclId
  | 0, _ => []
  | depth + 1, id =>
    match tree.get? id with
    | none => [id]
    | some decl => id :: decl.form.children.flatMap (tree.preorderFrom depth)

/-- The declarations under the roots in the order of a walk. -/
def preorder (tree : DeclTree) : List DeclId :=
  tree.roots.flatMap (tree.preorderFrom tree.maxDepth)

def postorderFrom (tree : DeclTree) : (depth : Nat) → DeclId → List DeclId
  | 0, _ => []
  | depth + 1, id =>
    match tree.get? id with
    | none => []
    | some decl => decl.form.children.flatMap (tree.postorderFrom depth) ++ [id]

/-- The declarations under the roots, each after those inside it. -/
def postorder (tree : DeclTree) : List DeclId :=
  tree.roots.flatMap (tree.postorderFrom tree.maxDepth)

def symbolsFrom (tree : DeclTree) : (depth : Nat) → DeclId → List SymbolId
  | 0, _ => []
  | depth + 1, id =>
    match tree.get? id with
    | none => []
    | some decl => decl.symbol :: decl.form.occurrences.flatMap
        (Occurrence.symbols (tree.symbolsFrom depth))

/-- Every occurrence of a symbol under the roots: the symbol that a declaration owns, then those that
it mentions, and those in the declarations inside it where these stand. -/
def symbolsInUse (tree : DeclTree) : List SymbolId :=
  tree.roots.flatMap (tree.symbolsFrom tree.maxDepth)

variable {tree : DeclTree}

theorem preorderFrom_of_get? {id : DeclId} {decl : Decl} (found : tree.get? id = some decl)
    (depth : Nat) : tree.preorderFrom (depth + 1) id =
      id :: decl.form.children.flatMap (tree.preorderFrom depth) := by
  rw [preorderFrom, found]

theorem postorderFrom_of_get? {id : DeclId} {decl : Decl} (found : tree.get? id = some decl)
    (depth : Nat) : tree.postorderFrom (depth + 1) id =
      decl.form.children.flatMap (tree.postorderFrom depth) ++ [id] := by
  rw [postorderFrom, found]

theorem symbolsFrom_of_get? {id : DeclId} {decl : Decl} (found : tree.get? id = some decl)
    (depth : Nat) : tree.symbolsFrom (depth + 1) id =
      decl.symbol :: decl.form.occurrences.flatMap
        (Occurrence.symbols (tree.symbolsFrom depth)) := by
  rw [symbolsFrom, found]

theorem mem_preorderFrom_self {depth : Nat} {id : DeclId} (fits : tree.Fits depth id) :
    id ∈ tree.preorderFrom depth id := by
  cases depth with
  | zero => exact fits.elim
  | succ depth =>
    obtain ⟨decl, found, -⟩ := fits
    rw [preorderFrom_of_get? found]
    exact List.mem_cons_self

theorem exists_get?_of_mem_preorderFrom {depth : Nat} {root id : DeclId}
    (fits : tree.Fits depth root) (inside : id ∈ tree.preorderFrom depth root) :
    ∃ decl, tree.get? id = some decl := by
  induction depth generalizing root with
  | zero => exact fits.elim
  | succ depth ih =>
    obtain ⟨decl, found, below⟩ := fits
    rw [preorderFrom_of_get? found, List.mem_cons, List.mem_flatMap] at inside
    rcases inside with rfl | ⟨child, listed, inside⟩
    · exact ⟨decl, found⟩
    · exact ih (below child listed) inside

theorem mem_preorderFrom_of_child {depth : Nat} {root parent child : DeclId} {decl : Decl}
    (fits : tree.Fits depth root) (inside : parent ∈ tree.preorderFrom depth root)
    (found : tree.get? parent = some decl) (listed : child ∈ decl.form.children) :
    child ∈ tree.preorderFrom depth root := by
  induction depth generalizing root with
  | zero => exact fits.elim
  | succ depth ih =>
    obtain ⟨top, foundTop, below⟩ := fits
    rw [preorderFrom_of_get? foundTop, List.mem_cons, List.mem_flatMap] at inside ⊢
    right
    rcases inside with rfl | ⟨between, listedTop, inside⟩
    · have same : top = decl := Option.some.inj (foundTop.symm.trans found)
      subst same
      exact ⟨child, listed, mem_preorderFrom_self (below child listed)⟩
    · exact ⟨between, listedTop, ih (below between listedTop) inside⟩

theorem reachable_of_mem_preorderFrom {depth : Nat} {root id : DeclId}
    (reached : tree.Reachable root) (inside : id ∈ tree.preorderFrom depth root) :
    tree.Reachable id := by
  induction depth generalizing root with
  | zero => exact nomatch inside
  | succ depth ih =>
    cases found : tree.get? root with
    | none =>
      rw [preorderFrom, found, List.mem_singleton] at inside
      exact inside ▸ reached
    | some decl =>
      rw [preorderFrom_of_get? found, List.mem_cons, List.mem_flatMap] at inside
      rcases inside with rfl | ⟨child, listed, inside⟩
      · exact reached
      · exact ih (reached.child found listed) inside

theorem reachable_of_mem_preorder {id : DeclId} (inside : id ∈ tree.preorder) :
    tree.Reachable id := by
  obtain ⟨root, listed, inside⟩ := List.mem_flatMap.1 inside
  exact reachable_of_mem_preorderFrom (.root listed) inside

/-- Where the walk fits, it meets exactly what is under the roots. -/
theorem mem_preorder_iff (fits : ∀ root ∈ tree.roots, tree.Fits tree.maxDepth root) {id : DeclId} :
    id ∈ tree.preorder ↔ tree.Reachable id := by
  refine ⟨reachable_of_mem_preorder, fun reached => ?_⟩
  induction reached with
  | root listed =>
    exact List.mem_flatMap.2 ⟨_, listed, mem_preorderFrom_self (fits _ listed)⟩
  | child _ found listed ih =>
    obtain ⟨root, listedRoot, inside⟩ := List.mem_flatMap.1 ih
    exact List.mem_flatMap.2
      ⟨root, listedRoot, mem_preorderFrom_of_child (fits root listedRoot) inside found listed⟩

theorem mem_symbolsFrom_iff {depth : Nat} {root : DeclId} (fits : tree.Fits depth root)
    {symbol : SymbolId} : symbol ∈ tree.symbolsFrom depth root ↔
      ∃ id ∈ tree.preorderFrom depth root, ∃ decl, tree.get? id = some decl ∧
        symbol ∈ decl.symbols := by
  induction depth generalizing root with
  | zero => exact fits.elim
  | succ depth ih =>
    obtain ⟨decl, found, below⟩ := fits
    rw [symbolsFrom_of_get? found, preorderFrom_of_get? found, List.mem_cons,
      Occurrence.mem_flatMap_symbols, DeclForm.decls_of_occurrences, ← or_assoc, ← List.mem_cons]
    constructor
    · intro inUse
      rcases inUse with here | ⟨child, listed, inside⟩
      · exact ⟨root, List.mem_cons_self, decl, found, here⟩
      · obtain ⟨id, met, rest⟩ := (ih (below child listed)).1 inside
        exact ⟨id, List.mem_cons_of_mem _ (List.mem_flatMap.2 ⟨child, listed, met⟩), rest⟩
    · intro inUse
      obtain ⟨id, met, inner, foundInner, stands⟩ := inUse
      rcases List.mem_cons.1 met with rfl | met
      · obtain rfl : decl = inner := Option.some.inj (found.symm.trans foundInner)
        exact .inl stands
      · obtain ⟨child, listed, met⟩ := List.mem_flatMap.1 met
        exact .inr ⟨child, listed, (ih (below child listed)).2 ⟨id, met, inner, foundInner, stands⟩⟩

/-- The symbols in use are those that stand in the declarations under the roots. -/
theorem mem_symbolsInUse_iff (fits : ∀ root ∈ tree.roots, tree.Fits tree.maxDepth root)
    {symbol : SymbolId} : symbol ∈ tree.symbolsInUse ↔
      ∃ id, tree.Reachable id ∧ ∃ decl, tree.get? id = some decl ∧ symbol ∈ decl.symbols := by
  simp only [← mem_preorder_iff fits, symbolsInUse, preorder, List.mem_flatMap]
  constructor
  · intro inUse
    obtain ⟨root, listed, inside⟩ := inUse
    obtain ⟨id, met, rest⟩ := (mem_symbolsFrom_iff (fits root listed)).1 inside
    exact ⟨id, ⟨root, listed, met⟩, rest⟩
  · intro inUse
    obtain ⟨id, ⟨root, listed, met⟩, rest⟩ := inUse
    exact ⟨root, listed, (mem_symbolsFrom_iff (fits root listed)).2 ⟨id, met, rest⟩⟩

theorem postorderFrom_perm {depth : Nat} {id : DeclId} (fits : tree.Fits depth id) :
    (tree.postorderFrom depth id).Perm (tree.preorderFrom depth id) := by
  induction depth generalizing id with
  | zero => exact fits.elim
  | succ depth ih =>
    obtain ⟨decl, found, below⟩ := fits
    rw [postorderFrom_of_get? found, preorderFrom_of_get? found]
    have inside := List.Perm.flatMap_left _ fun child listed => ih (below child listed)
    exact (List.perm_append_singleton _ _).trans (inside.cons id)

theorem postorder_perm (fits : ∀ root ∈ tree.roots, tree.Fits tree.maxDepth root) :
    tree.postorder.Perm tree.preorder :=
  List.Perm.flatMap_left _ fun root listed => postorderFrom_perm (fits root listed)

end DeclTree

end Relabel
