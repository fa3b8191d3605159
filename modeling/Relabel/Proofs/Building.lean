import Relabel.Proofs.LifeCycle

namespace Relabel

namespace DeclTree

variable {tree other : DeclTree} {parent child : DeclId}

/-- A declaration that has been added after `child` lists it. -/
def ListsLater (tree : DeclTree) (parent child : DeclId) : Prop :=
  child.index < parent.index ∧ ∃ decl, tree.get? parent = some decl ∧ child ∈ decl.form.children

/-- Containers are what building makes them: of the declarations that list one added before, the last
to be added contains it. -/
structure Wired (tree : DeclTree) : Prop where
  lists : ∀ id decl container, tree.get? id = some decl → decl.container = some container →
    tree.ListsLater container id
  latest : ∀ id decl, tree.get? id = some decl → ∀ parent, tree.ListsLater parent id →
    ∃ container, decl.container = some container ∧ parent.index ≤ container.index

/-- Of the declarations that list `child` and have been added after it, this one is the last. -/
def LastLister (tree : DeclTree) (parent child : DeclId) : Prop :=
  tree.ListsLater parent child ∧ ∀ other, tree.ListsLater other child → other.index ≤ parent.index

theorem Wired.container_eq_some_iff (wired : tree.Wired) {decl : Decl}
    (found : tree.get? child = some decl) :
    decl.container = some parent ↔ tree.LastLister parent child := by
  constructor
  · intro inside
    refine ⟨wired.lists child decl parent found inside, fun other lists => ?_⟩
    obtain ⟨container, same, last⟩ := wired.latest child decl found other lists
    rwa [Option.some.inj (same.symm.trans inside)] at last
  · intro last
    obtain ⟨container, inside, later⟩ := wired.latest child decl found parent last.1
    have lists := wired.lists child decl container found inside
    have index : parent.index = container.index := Nat.le_antisymm later (last.2 container lists)
    rw [inside, Option.some.injEq]
    exact congrArg DeclId.mk index.symm

/-- What a declaration says about the shape of the tree. -/
def shapeOf (tree : DeclTree) (id : DeclId) : Option (DeclForm × Option DeclId) :=
  (tree.get? id).map fun decl => (decl.form, decl.container)

theorem shapeOf_eq_some_iff {id : DeclId} {form : DeclForm} {container : Option DeclId} :
    tree.shapeOf id = some (form, container) ↔
      ∃ decl, tree.get? id = some decl ∧ decl.form = form ∧ decl.container = container := by
  simp [shapeOf]

theorem shapeOf_of_get? {id : DeclId} {decl : Decl} (found : tree.get? id = some decl) :
    tree.shapeOf id = some (decl.form, decl.container) :=
  shapeOf_eq_some_iff.2 ⟨decl, found, rfl, rfl⟩

theorem ListsLater.of_shape (same : ∀ id, other.shapeOf id = tree.shapeOf id)
    (lists : tree.ListsLater parent child) : other.ListsLater parent child := by
  obtain ⟨later, decl, found, listed⟩ := lists
  have shape := (same parent).trans (shapeOf_of_get? found)
  obtain ⟨around, foundOther, form, -⟩ := shapeOf_eq_some_iff.1 shape
  exact ⟨later, around, foundOther, form ▸ listed⟩

/-- The attributes of declarations do not matter to their containers. -/
theorem Wired.of_shape (same : ∀ id, other.shapeOf id = tree.shapeOf id) (wired : tree.Wired) :
    other.Wired := by
  constructor
  · intro id decl container found inside
    have shape := (same id).symm.trans (shapeOf_of_get? found)
    obtain ⟨old, foundOld, -, around⟩ := shapeOf_eq_some_iff.1 shape
    exact (wired.lists id old container foundOld (around.trans inside)).of_shape same
  · intro id decl found parent lists
    have shape := (same id).symm.trans (shapeOf_of_get? found)
    obtain ⟨old, foundOld, -, around⟩ := shapeOf_eq_some_iff.1 shape
    have before := lists.of_shape fun id => (same id).symm
    obtain ⟨container, inside, last⟩ := wired.latest id old foundOld parent before
    exact ⟨container, around.symm.trans inside, last⟩

/-- A new declaration lists what it lists later than all before it, and they list what they did. -/
theorem listsLater_add_iff (tree : DeclTree) (decl : Decl) :
    (tree.add decl).2.ListsLater parent child ↔ tree.ListsLater parent child ∨
      (parent = ⟨tree.size⟩ ∧ child.index < tree.size ∧ child ∈ decl.form.children) := by
  unfold ListsLater
  rw [get?_add]
  by_cases new : parent = ⟨tree.size⟩
  · subst new
    have outside : tree.get? ⟨tree.size⟩ = none := by
      rw [Option.eq_none_iff_forall_ne_some]
      intro other found
      exact Nat.lt_irrefl _ (lt_size_of_get? found)
    simp [outside]
  · simp only [new, if_false, false_and, or_false]
    split
    · simp [Decl.within]
    · rfl

theorem Wired.add (wired : tree.Wired) (decl : Decl) (fresh : decl.container = none) :
    (tree.add decl).2.Wired := by
  constructor
  · intro id inner container found inside
    rw [get?_add] at found
    rw [listsLater_add_iff]
    split at found
    · obtain rfl := Option.some.inj found
      rw [fresh] at inside
      exact nomatch inside
    · split at found
      · next listed =>
        obtain ⟨old, foundOld, rfl⟩ := Option.map_eq_some_iff.1 found
        obtain rfl : ⟨tree.size⟩ = container := Option.some.inj inside
        exact .inr ⟨rfl, lt_size_of_get? foundOld, listed⟩
      · exact .inl (wired.lists id inner container found inside)
  · intro id inner found parent lists
    rw [listsLater_add_iff] at lists
    rw [get?_add] at found
    split at found
    · next new =>
      -- Nothing is added after the last one.
      subst new
      rcases lists with ⟨later, decl, foundParent, -⟩ | ⟨-, inside, -⟩
      · exact absurd (lt_size_of_get? foundParent) (Nat.not_lt.2 (Nat.le_of_lt later))
      · exact absurd inside (Nat.lt_irrefl _)
    · split at found
      · obtain ⟨old, foundOld, rfl⟩ := Option.map_eq_some_iff.1 found
        refine ⟨⟨tree.size⟩, rfl, ?_⟩
        rcases lists with ⟨-, decl, foundParent, -⟩ | ⟨rfl, -, -⟩
        · exact Nat.le_of_lt (lt_size_of_get? foundParent)
        · exact Nat.le_refl _
      · next unlisted =>
        rcases lists with before | ⟨-, -, listed⟩
        · exact wired.latest id inner found parent before
        · exact absurd listed unlisted

theorem get?_edit? {edited : DeclTree} {id : DeclId} {change : DeclEdit}
    (done : tree.edit? id change = some edited) (other : DeclId) :
    edited.get? other =
      (tree.get? other).map fun decl => if other = id then decl.edit change else decl := by
  obtain ⟨decl, found, rfl⟩ := Option.map_eq_some_iff.1 done
  have inside : id.index < tree.decls.size := lt_size_of_get? found
  by_cases same : other = id
  · subst same
    rw [found]
    simp [get?, inside]
  · have apart : id.index ≠ other.index := fun index => same (congrArg DeclId.mk index).symm
    change (tree.decls.setIfInBounds id.index _)[other.index]? = _
    rw [Array.getElem?_setIfInBounds_ne apart]
    simp [get?, same]

theorem shapeOf_edit? {edited : DeclTree} {id : DeclId} {change : DeclEdit}
    (done : tree.edit? id change = some edited) (other : DeclId) :
    edited.shapeOf other = tree.shapeOf other := by
  rw [shapeOf, shapeOf, get?_edit? done, Option.map_map]
  refine congrArg (Option.map · (tree.get? other)) (funext fun decl => ?_)
  by_cases same : other = id <;> simp [same, Decl.edit]

end DeclTree

namespace CompilationUnit

variable {unit : CompilationUnit}

/-- The declarations of a unit own symbols that its table knows, and their containers are right. -/
structure Coherent (unit : CompilationUnit) : Prop where
  wired : unit.tree.Wired
  known : ∀ id decl, unit.tree.get? id = some decl →
    ∃ symbol, unit.symbols.get? decl.symbol = some symbol

theorem build_add (unit : CompilationUnit) (origin : Symbol.Origin) (kind : Symbol.Kind)
    (form : DeclForm) (span : Span) : unit.build (.add origin kind form span) =
      ⟨unit.symbols.serveAll [.add kind origin (some span),
          .bind ⟨unit.symbols.size⟩ ⟨unit.tree.id, ⟨unit.tree.size⟩⟩ span],
        (unit.tree.add { symbol := ⟨unit.symbols.size⟩, form, span }).2⟩ :=
  declare_snd _ _

theorem coherent_start (table : SymbolTable) : (start table).Coherent := by
  refine ⟨⟨?_, ?_⟩, ?_⟩
  · intro id decl container found
    cases found
  · intro id decl found
    cases found
  · intro id decl found
    cases found

theorem Coherent.add (coherent : unit.Coherent) (origin : Symbol.Origin) (kind : Symbol.Kind)
    (form : DeclForm) (span : Span) : (unit.build (.add origin kind form span)).Coherent := by
  rw [build_add]
  let requests : List SymbolTable.Request := [.add kind origin (some span),
    .bind ⟨unit.symbols.size⟩ ⟨unit.tree.id, ⟨unit.tree.size⟩⟩ span]
  -- The symbol is added first, so that it is there when it is to be bound.
  have added : (unit.symbols.serve (.add kind origin (some span))).get? ⟨unit.symbols.size⟩ =
      some { kind, origin, source := some span } :=
    (SymbolTable.get?_add unit.symbols kind origin (some span) _).trans (if_pos rfl)
  have here : ∃ symbol, (unit.symbols.serveAll requests).get? ⟨unit.symbols.size⟩ = some symbol :=
    ⟨_, SymbolTable.get?_serve added (.bind ⟨unit.symbols.size⟩ ⟨unit.tree.id, ⟨unit.tree.size⟩⟩ span)⟩
  have still {decl : Decl} {id : DeclId} (found : unit.tree.get? id = some decl) :
      ∃ symbol, (unit.symbols.serveAll requests).get? decl.symbol = some symbol := by
    obtain ⟨symbol, known⟩ := coherent.known id decl found
    exact ⟨_, SymbolTable.get?_serveAll known requests⟩
  refine ⟨coherent.wired.add _ rfl, fun id decl found => ?_⟩
  rw [DeclTree.get?_add] at found
  split at found
  · obtain rfl := Option.some.inj found
    exact here
  · split at found
    · obtain ⟨old, foundOld, rfl⟩ := Option.map_eq_some_iff.1 found
      have known := still foundOld
      exact known
    · exact still found

theorem Coherent.edit (coherent : unit.Coherent) (id : DeclId) (change : DeclEdit) :
    (unit.build (.edit id change)).Coherent := by
  have built : unit.build (.edit id change) = (unit.edit? id change).getD unit := rfl
  rw [built, edit?]
  cases done : unit.tree.edit? id change with
  | none => exact coherent
  | some edited =>
    refine ⟨coherent.wired.of_shape (DeclTree.shapeOf_edit? done), fun other decl found => ?_⟩
    have inside : edited.get? other = some decl := found
    rw [DeclTree.get?_edit? done, Option.map_eq_some_iff] at inside
    obtain ⟨old, foundOld, rfl⟩ := inside
    obtain ⟨symbol, known⟩ := coherent.known other old foundOld
    by_cases same : other = id
    · rw [if_pos same]
      exact ⟨symbol, known⟩
    · rw [if_neg same]
      exact ⟨symbol, known⟩

theorem Coherent.build (coherent : unit.Coherent) (step : BuildStep) :
    (unit.build step).Coherent := by
  cases step with
  | add origin kind form span => exact coherent.add origin kind form span
  | addRoot id => exact ⟨⟨coherent.wired.lists, coherent.wired.latest⟩, coherent.known⟩
  | edit id change => exact coherent.edit id change

theorem Coherent.buildAll (coherent : unit.Coherent) (steps : List BuildStep) :
    (unit.buildAll steps).Coherent := by
  induction steps generalizing unit with
  | nil => exact coherent
  | cons step steps ih => exact ih (coherent.build step)

end CompilationUnit

end Relabel
