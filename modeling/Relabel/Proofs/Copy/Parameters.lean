import Relabel.Proofs.Building
import Relabel.Proofs.Copy.Fresh
import Relabel.Proofs.Judge.DecisionTable
import Relabel.Proofs.Tree.BottomUp

namespace Relabel

namespace DeclForm

/-- The parameters that a function or constructor lists. -/
def parameters : DeclForm → List DeclId
  | .ctor typeParams params _ => typeParams ++ params
  | .function _ typeParams receiver params _ _ => typeParams ++ receiver.toList ++ params
  | .cls .. | .valueParam .. | .receiverParam .. | .typeParam .. => []

def isParameter : DeclForm → Bool
  | .valueParam .. | .receiverParam .. | .typeParam .. => true
  | .cls .. | .ctor .. | .function .. => false

theorem isSignature_of_mem_parameters {form : DeclForm} {param : DeclId}
    (listed : param ∈ form.parameters) : form.isSignature = true := by
  cases form <;> first | rfl | exact nomatch listed

theorem parameters_subset_children (form : DeclForm) : form.parameters ⊆ form.children := by
  intro param listed
  cases form with
  | ctor typeParams params body => exact List.mem_append_left _ listed
  | function name typeParams receiver params result body => exact List.mem_append_left _ listed
  | _ => exact nomatch listed

theorem sort_ne_cls_of_isParameter {form : DeclForm} (parameter : form.isParameter = true) :
    form.sort ≠ .cls := by
  cases form <;> simp [isParameter, sort] at parameter ⊢

end DeclForm

namespace Judge

variable {judge : Judge}

/-- A parameter whose container is transformed has a reason to be transformed. -/
theorem reason_of_isParameter {transformed : DeclId → Prop} {decl : Decl} {placeholder : Prop}
    (parameter : decl.form.isParameter = true) (inside : judge.InTransformed transformed decl) :
    judge.Reason transformed decl placeholder := by
  unfold Reason
  cases form : decl.form with
  | valueParam name ty default => exact .inr (.inr inside)
  | receiverParam ty => exact .inr (.inr inside)
  | typeParam name bounds => exact .inr inside
  | _ =>
    rw [form] at parameter
    exact nomatch parameter

end Judge

namespace DeclTree

/-- A declaration owns an unbound placeholder that only the later table knows. -/
def OwnsNew (tree : DeclTree) (before after : SymbolTable) (id : DeclId) : Prop :=
  ∃ decl symbol, tree.get? id = some decl ∧ before.get? decl.symbol = none ∧
    after.get? decl.symbol = some symbol ∧ symbol.isPlaceholder = true ∧ symbol.isBound = false

variable {tree : DeclTree} {predicate : TypePredicate} {before after : RelabelState} {copy : Copy}

theorem BottomUp.listsLater (bottomUp : tree.BottomUp) {parent child : DeclId} {decl : Decl}
    (found : tree.get? parent = some decl) (listed : child ∈ decl.form.children) :
    tree.ListsLater parent child :=
  ⟨bottomUp parent decl found child listed, decl, found, listed⟩

theorem BottomUp.inArena (bottomUp : tree.BottomUp) (wired : tree.Wired) : tree.InArena := by
  constructor
  · intro id decl found child listed
    have inside : child.index < tree.size :=
      Nat.lt_trans (bottomUp id decl found child listed) (lt_size_of_get? found)
    exact Option.isSome_iff_exists.1 ((tree.get?_isSome_iff child).2 inside)
  · intro id decl container found inside
    obtain ⟨-, around, foundAround, -⟩ := wired.lists id decl container found inside
    exact ⟨around, foundAround⟩

/-- A declaration that is transformed and no class gets a new symbol in a copy. -/
theorem exists_ownsNew_of_transformed
    (arena : ∀ id decl, tree.get? id = some decl →
      ∃ symbol, before.symbols.get? decl.symbol = some symbol)
    (run : (tree.copy predicate).run before = .ok copy after) :
    ∃ place, tree.CopiedTo copy place ∧ ∀ id decl symbol, tree.Reachable id →
      tree.get? id = some decl → before.symbols.get? decl.symbol = some symbol → symbol.kind ≠ .cls →
      (Judge.mk tree predicate).ruling before.symbols id = .ok true →
      copy.tree.OwnsNew before.symbols after.symbols (place id) := by
  obtain ⟨owners, renewal⟩ := exists_renewedBy run
  refine ⟨_, renewal.copiedTo, fun id decl symbol reached found known noClass transformed => ?_⟩
  obtain ⟨verdict, ruled, new, entry, decided⟩ := exists_ruling_of_copy arena run reached found known
  obtain rfl : true = verdict := Except.ok.inj (transformed.symm.trans ruled)
  have moved : new ≠ decl.symbol := decided.2 ⟨rfl, noClass⟩
  obtain ⟨above, -, old, -, -, added⟩ := renewal.renewed.added decl.symbol new (mem_of_lookup entry) moved
  obtain ⟨image, foundImage, copied⟩ := renewal.copiedTo.exists_image reached found
  have owned : image.symbol = new := by rw [copied.symbol, Substitution.apply_eq_of_get? entry]
  refine ⟨image, old.standIn, foundImage, ?_, ?_, rfl, rfl⟩
  · rw [owned, Option.eq_none_iff_forall_ne_some]
    intro data here
    have below := SymbolTable.lt_size_of_get? here
    exact absurd above (Nat.not_le.2 below)
  · rw [owned]
    exact added

section Building

variable (wired : tree.Wired) (bottomUp : tree.BottomUp) (total : predicate.Total)
  (arena : ∀ id decl, tree.get? id = some decl →
    ∃ symbol, before.symbols.get? decl.symbol = some symbol)

include wired bottomUp total arena

/-- A parameter is transformed with the last function or constructor that lists it. -/
theorem ruling_of_lastLister {param last : DeclId} {inner around : Decl}
    (found : tree.get? param = some inner) (parameter : inner.form.isParameter = true)
    (lister : tree.LastLister last param) (foundLast : tree.get? last = some around)
    (signature : around.form.isSignature = true)
    (transformed : (Judge.mk tree predicate).ruling before.symbols last = .ok true) :
    (Judge.mk tree predicate).ruling before.symbols param = .ok true := by
  obtain ⟨symbol, known⟩ := arena param inner found
  have inside : inner.container = some last := (wired.container_eq_some_iff found).2 lister
  have furnished : (Judge.mk tree predicate).Furnished before.symbols := arena
  have decides := Judge.decides_ruling total (bottomUp.inArena wired) furnished found known
  obtain ⟨verdict, ruled⟩ := decides.exists_eq_ok
  have reason : (Judge.mk tree predicate).Reason
      (fun other => (Judge.mk tree predicate).ruling before.symbols other = .ok true) inner
      (symbol.isPlaceholder = true) :=
    Judge.reason_of_isParameter parameter ⟨last, around, inside, foundLast, signature, transformed⟩
  rw [ruled, (decides.iff_of_eq_ok ruled).2 reason]

end Building

/-- In a tree that was built bottom up, a transformed function or constructor gives its status to the
parameters that it lists, unless one that has been added later lists them too and is not transformed. -/
theorem parameters_of_copy (table : SymbolTable) (steps : List BuildStep) (unit : CompilationUnit)
    (predicate : TypePredicate) (before after : RelabelState) (copy : Copy)
    (built : (CompilationUnit.start table).buildAll steps = unit)
    (grown : before.symbols.Keeps unit.symbols) (bottomUp : unit.tree.BottomUp)
    (admitted : ∀ id decl symbol, unit.tree.get? id = some decl →
      before.symbols.get? decl.symbol = some symbol → decl.form.admits symbol.kind = true)
    (total : predicate.Total) (run : (unit.tree.copy predicate).run before = .ok copy after) :
    ∃ place, unit.tree.CopiedTo copy place ∧ ∀ id decl param inner, unit.tree.Reachable id →
      unit.tree.get? id = some decl → (Judge.mk unit.tree predicate).Finds before.symbols id true →
      param ∈ decl.form.parameters → unit.tree.get? param = some inner →
      inner.form.isParameter = true →
      (∀ last around, unit.tree.LastLister last param → unit.tree.get? last = some around →
        last ≠ id → around.form.isSignature = true ∧
          (Judge.mk unit.tree predicate).Finds before.symbols last true) →
      copy.tree.OwnsNew before.symbols after.symbols (place param) := by
  have coherent : unit.Coherent := built ▸ (CompilationUnit.coherent_start table).buildAll steps
  have arena (id : DeclId) (decl : Decl) (found : unit.tree.get? id = some decl) :
      ∃ symbol, before.symbols.get? decl.symbol = some symbol := by
    obtain ⟨symbol, known⟩ := coherent.known id decl found
    obtain ⟨same, knownNow, -⟩ := grown decl.symbol symbol known
    exact ⟨same, knownNow⟩
  obtain ⟨place, copiedTo, owns⟩ := exists_ownsNew_of_transformed arena run
  refine ⟨place, copiedTo, ?_⟩
  intro id decl param inner reached found transformed listed foundParam parameter others
  have inside := decl.form.parameters_subset_children listed
  obtain ⟨symbol, known⟩ := arena param inner foundParam
  have noClass : symbol.kind ≠ .cls := by
    intro isClass
    have sort := DeclForm.admits_eq_true_iff.1 (admitted param inner symbol foundParam known)
    rw [isClass] at sort
    exact DeclForm.sort_ne_cls_of_isParameter parameter sort
  -- The last one that lists the parameter is this one or one that is transformed as well.
  obtain ⟨last, contained, -⟩ :=
    coherent.wired.latest param inner foundParam id (bottomUp.listsLater found inside)
  have lister := (coherent.wired.container_eq_some_iff foundParam).1 contained
  obtain ⟨-, around, foundLast, -⟩ := lister.1
  have follows : around.form.isSignature = true ∧
      (Judge.mk unit.tree predicate).Finds before.symbols last true := by
    by_cases same : last = id
    · subst same
      obtain rfl := Option.some.inj (found.symm.trans foundLast)
      exact ⟨DeclForm.isSignature_of_mem_parameters listed, transformed⟩
    · exact others last around lister foundLast same
  have ruled := ruling_of_lastLister coherent.wired bottomUp total arena foundParam parameter lister
    foundLast follows.1 (Judge.finds_iff.1 follows.2)
  exact owns param inner symbol (reached.child found inside) foundParam known noClass ruled

/-- Two functions list one parameter. The first has an annotated result and is a root, the second is
added later and may have one, too. -/
def sharing (annotated : Bool) : CompilationUnit :=
  let result := (TypeExpr.ofName ⟨2⟩).annotate ⟨9⟩
  (CompilationUnit.start {}).buildAll [
    .add .declared .valueParam (.required ⟨1⟩ (.ofName ⟨2⟩)) .dummy,
    .add .declared (.function .plain) (.signature ⟨3⟩ [⟨0⟩] (some result)) .dummy,
    .add .declared (.function .plain)
      (.signature ⟨4⟩ [⟨0⟩] (if annotated then some result else none)) .dummy,
    .addRoot ⟨1⟩]

theorem total_marked (marker : Name) : (TypePredicate.marked marker).Total :=
  fun ty => ⟨ty.carries marker, rfl⟩

theorem parameters_of_copy_sharing : ∃ copy after place,
    ((sharing true).tree.copy (.marked ⟨9⟩)).run ⟨(sharing true).symbols, []⟩ =
        .ok copy after ∧
      (sharing true).tree.CopiedTo copy place ∧
      copy.tree.OwnsNew (sharing true).symbols after.symbols (place ⟨0⟩) := by
  have done : ((sharing true).tree.copy (.marked ⟨9⟩)).succeeds
      ⟨(sharing true).symbols, []⟩ = true := by decide +kernel
  have bottomUp : (sharing true).tree.BottomUp := by decide +kernel
  have admits : ∀ decl ∈ (sharing true).tree.decls.toList,
      ∀ symbol ∈ (sharing true).symbols.get? decl.symbol,
        decl.form.admits symbol.kind = true := by decide +kernel
  obtain ⟨copy, after, run⟩ := Pass.succeeds_eq_true_iff.1 done
  obtain ⟨place, copiedTo, owns⟩ := parameters_of_copy {} _ _ (.marked ⟨9⟩) _ after copy rfl (.refl _)
    bottomUp (fun _ decl symbol found known => admits decl (Array.mem_of_getElem? found).val symbol known)
    (total_marked _) run
  have transformed : (Judge.mk (sharing true).tree (.marked ⟨9⟩)).Finds
      (sharing true).symbols ⟨1⟩ true := Judge.finds_iff.2 rfl
  refine ⟨copy, after, place, run, copiedTo,
    owns ⟨1⟩ _ ⟨0⟩ _ (.root (by decide)) rfl transformed (by decide) rfl rfl ?_⟩
  intro last around lister found other
  have above : 0 < last.index := lister.1.1
  have below : last.index < 3 := lt_size_of_get? found
  have differs : last.index ≠ 1 := fun same => other (congrArg DeclId.mk same)
  obtain rfl : last = ⟨2⟩ := congrArg DeclId.mk (by omega)
  obtain rfl := Option.some.inj found
  exact ⟨rfl, Judge.finds_iff.2 rfl⟩

/-- A function listed the parameter later and is not transformed, so it keeps its symbol in the copy,
although the function that is copied with it is transformed. -/
theorem sharing_keeps_parameter :
    (sharing false).tree.BottomUp ∧
    (∀ id decl symbol, (sharing false).tree.get? id = some decl →
      (sharing false).symbols.get? decl.symbol = some symbol →
      decl.form.admits symbol.kind = true) ∧
    (TypePredicate.marked ⟨9⟩).Total ∧
    ∃ copy after decl inner,
      ((sharing false).tree.copy (.marked ⟨9⟩)).run ⟨(sharing false).symbols, []⟩ =
        .ok copy after ∧
      (sharing false).tree.Reachable ⟨1⟩ ∧
      (sharing false).tree.get? ⟨1⟩ = some decl ∧
      (Judge.mk (sharing false).tree (.marked ⟨9⟩)).Finds
        (sharing false).symbols ⟨1⟩ true ∧
      ⟨0⟩ ∈ decl.form.parameters ∧ (sharing false).tree.get? ⟨0⟩ = some inner ∧
      inner.form.isParameter = true ∧
      ∀ place, (sharing false).tree.CopiedTo copy place →
        ¬copy.tree.OwnsNew (sharing false).symbols after.symbols (place ⟨0⟩) := by
  have admits : ∀ decl ∈ (sharing false).tree.decls.toList,
      ∀ symbol ∈ (sharing false).symbols.get? decl.symbol,
        decl.form.admits symbol.kind = true := by decide +kernel
  have reached : (sharing false).tree.Reachable ⟨1⟩ := .root (by decide)
  refine ⟨by decide +kernel, ?_, total_marked _, ?_⟩
  · intro id decl symbol found known
    exact admits decl (Array.mem_of_getElem? found).val symbol known
  · refine ⟨_, _, _, _, rfl, reached, rfl, Judge.finds_iff.2 rfl, by decide, rfl, rfl, ?_⟩
    intro place copiedTo owns
    obtain ⟨image, symbol, found, unknown, -⟩ := owns
    obtain ⟨same, foundSame, copied⟩ :=
      copiedTo.exists_image (reached.child rfl (List.mem_singleton_self _)) rfl
    obtain rfl := Option.some.inj (found.symm.trans foundSame)
    rw [copied.symbol] at unknown
    cases unknown

end DeclTree

end Relabel
