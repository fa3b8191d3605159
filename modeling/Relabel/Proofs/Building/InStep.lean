import Relabel.Proofs.Building

namespace Relabel

/-- A declaration as it is added, with the origin and the kind of the symbol that it gets. -/
structure Addition where
  origin : Symbol.Origin
  kind : Symbol.Kind
  form : DeclForm
  span : Span

def BuildStep.addition? : BuildStep → Option Addition
  | add origin kind form span => some ⟨origin, kind, form, span⟩
  | addRoot _ | edit .. => none

/-- The declarations that are added, in that order. -/
def BuildStep.additions (steps : List BuildStep) : List Addition := steps.filterMap addition?

theorem BuildStep.additions_cons (step : BuildStep) (steps : List BuildStep) :
    additions (step :: steps) = step.addition?.toList ++ additions steps := by
  unfold additions
  cases step <;> simp [addition?, List.filterMap_cons]

namespace Addition

def step (addition : Addition) : BuildStep :=
  .add addition.origin addition.kind addition.form addition.span

/-- The symbol of an added declaration. -/
def symbol (addition : Addition) (site : DeclSite) : Symbol where
  kind := addition.kind
  origin := addition.origin
  source := some addition.span
  site := some site

/-- The answer to the request to bind the symbol of a declaration that is added to a unit. -/
def bindResult (addition : Addition) (unit : CompilationUnit) : Except SymbolTable.Error BindResult :=
  let (symbol, symbols) := unit.symbols.add addition.kind addition.origin (some addition.span)
  ({ unit with symbols }.declare { symbol, form := addition.form, span := addition.span }).1.2

/-- A symbol is new when it is to be bound, so it is not bound yet. -/
theorem bindResult_eq_bound (addition : Addition) (unit : CompilationUnit) :
    addition.bindResult unit = .ok .bound := by
  have known : (unit.symbols.add addition.kind addition.origin (some addition.span)).2.get?
      ⟨unit.symbols.size⟩ =
        some { kind := addition.kind, origin := addition.origin, source := some addition.span } := by
    simp [SymbolTable.get?_add]
  have bound := SymbolTable.bind_of_not_isBound known rfl ⟨unit.tree.id, ⟨unit.tree.size⟩⟩
    addition.span
  simp only [SymbolTable.add] at bound
  simp only [bindResult, CompilationUnit.declare, SymbolTable.add, DeclTree.add, bound]

end Addition

namespace CompilationUnit

variable {unit : CompilationUnit} {table : SymbolTable} {added : List Addition}

/-- Where the next declaration is put. -/
def nextSite (unit : CompilationUnit) : DeclSite := ⟨unit.tree.id, ⟨unit.tree.size⟩⟩

/-- The declarations of a unit are those that have been added to its tree since this was the table, in
that order. They own the symbols that follow those in the table, which are as they were, and each is
bound to its owner. -/
structure InStep (table : SymbolTable) (added : List Addition) (unit : CompilationUnit) : Prop where
  tree : unit.tree.id = table.takeTree.1
  size : unit.tree.size = added.length
  symbols : unit.symbols.size = table.size + added.length
  owned : ∀ index addition, added[index]? = some addition → ∃ decl,
    unit.tree.get? ⟨index⟩ = some decl ∧ decl.form = addition.form ∧
      decl.symbol = ⟨table.size + index⟩ ∧
      unit.symbols.get? decl.symbol = some (addition.symbol ⟨unit.tree.id, ⟨index⟩⟩)
  older : ∀ id : SymbolId, id.index < table.size → unit.symbols.get? id = table.get? id
  wired : unit.tree.Wired

/-- To add a declaration is to put its symbol, bound already, after all others. -/
theorem symbols_build_add (unit : CompilationUnit) (addition : Addition) :
    (unit.build addition.step).symbols = { unit.symbols with
      symbols := unit.symbols.symbols.push (addition.symbol unit.nextSite) } := by
  let table := (unit.symbols.add addition.kind addition.origin (some addition.span)).2
  have known : table.get? ⟨unit.symbols.size⟩ =
      some { kind := addition.kind, origin := addition.origin, source := some addition.span } := by
    simp [table, SymbolTable.get?_add]
  rw [Addition.step, build_add]
  change table.serve (.bind ⟨unit.symbols.size⟩ unit.nextSite addition.span) = _
  rw [SymbolTable.serve_bind_of_not_isBound known rfl]
  have replaced (old new : Symbol) : (unit.symbols.symbols.push old).setIfInBounds
      unit.symbols.symbols.size new = unit.symbols.symbols.push new := by
    apply Array.ext_getElem?
    intro index
    simp only [Array.getElem?_setIfInBounds, Array.getElem?_push, Array.size_push]
    split <;> split <;> simp_all
  simp [table, SymbolTable.add, SymbolTable.size, replaced, Symbol.boundTo, Addition.symbol]

theorem get?_symbols_build_add (unit : CompilationUnit) (addition : Addition) (id : SymbolId) :
    (unit.build addition.step).symbols.get? id =
      if id = ⟨unit.symbols.size⟩ then some (addition.symbol unit.nextSite)
      else unit.symbols.get? id := by
  cases id
  simp [symbols_build_add, SymbolTable.get?, SymbolTable.size, Array.getElem?_push]

namespace InStep

theorem start (table : SymbolTable) : (CompilationUnit.start table).InStep table [] where
  tree := rfl
  size := rfl
  symbols := rfl
  owned := by simp
  older _ _ := rfl
  wired := (coherent_start table).wired

theorem add (inStep : unit.InStep table added) (addition : Addition) :
    (unit.build addition.step).InStep table (added ++ [addition]) := by
  let decl : Decl := { symbol := ⟨unit.symbols.size⟩, form := addition.form, span := addition.span }
  have symbols := unit.symbols_build_add addition
  have tree : (unit.build addition.step).tree = (unit.tree.add decl).2 := by
    rw [Addition.step, build_add]
  refine ⟨?_, ?_, ?_, ?_, ?_, ?_⟩
  · rw [tree]
    exact inStep.tree
  · rw [tree, DeclTree.size_add, inStep.size]
    simp
  · have before := inStep.symbols
    simp only [symbols, SymbolTable.size, Array.size_push, List.length_append,
      List.length_singleton] at before ⊢
    omega
  · intro index other listed
    simp only [get?_symbols_build_add]
    rw [tree, DeclTree.get?_add, inStep.size, inStep.symbols]
    by_cases new : index = added.length
    · subst new
      obtain rfl : addition = other := by simpa using listed
      refine ⟨decl, if_pos rfl, rfl, ?_, ?_⟩
      · simp [decl, inStep.symbols]
      · simp [decl, inStep.symbols, nextSite, inStep.size, DeclTree.add]
    · have earlier : added[index]? = some other := by
        have inside : index < (added ++ [addition]).length :=
          (List.getElem?_eq_some_iff.1 listed).1
        rw [List.length_append, List.length_singleton] at inside
        rwa [List.getElem?_append_left (by omega)] at listed
      obtain ⟨inner, found, form, owner, known⟩ := inStep.owned index other earlier
      have apart : inner.symbol ≠ ⟨table.size + added.length⟩ := by
        rw [owner, ne_eq, SymbolId.mk.injEq]
        omega
      have differs : (⟨index⟩ : DeclId) ≠ ⟨added.length⟩ := by simpa using new
      have still : (if inner.symbol = ⟨table.size + added.length⟩ then
          some (addition.symbol unit.nextSite) else unit.symbols.get? inner.symbol) =
            some (other.symbol ⟨unit.tree.id, ⟨index⟩⟩) := by
        rwa [if_neg apart]
      rw [if_neg differs, found]
      split
      · exact ⟨_, rfl, form, owner, still⟩
      · exact ⟨inner, rfl, form, owner, still⟩
  · intro id old
    have apart : id ≠ ⟨unit.symbols.size⟩ := by
      rintro rfl
      have size := inStep.symbols
      simp only at old
      omega
    rw [get?_symbols_build_add, if_neg apart]
    exact inStep.older id old
  · rw [tree]
    exact inStep.wired.add _ rfl

theorem edit (inStep : unit.InStep table added) (id : DeclId) (change : DeclEdit) :
    (unit.build (.edit id change)).InStep table added := by
  have built : unit.build (.edit id change) = (unit.edit? id change).getD unit := rfl
  rw [built, edit?]
  cases done : unit.tree.edit? id change with
  | none => exact inStep
  | some edited =>
    have get? := DeclTree.get?_edit? done
    have wired := inStep.wired.of_shape (DeclTree.shapeOf_edit? done)
    obtain ⟨decl, -, rfl⟩ := Option.map_eq_some_iff.1 done
    refine ⟨inStep.tree, ?_, inStep.symbols, ?_, inStep.older, wired⟩
    · have size := inStep.size
      simpa [DeclTree.size] using size
    · intro index addition listed
      obtain ⟨inner, found, form, owner, known⟩ := inStep.owned index addition listed
      have here := get? ⟨index⟩
      rw [found, Option.map_some] at here
      refine ⟨_, here, ?_⟩
      split <;> exact ⟨form, owner, known⟩

theorem build (inStep : unit.InStep table added) (step : BuildStep) :
    (unit.build step).InStep table (added ++ step.addition?.toList) := by
  cases step with
  | add origin kind form span => exact inStep.add ⟨origin, kind, form, span⟩
  | addRoot id =>
    have wired : (unit.tree.addRoot id).Wired := ⟨inStep.wired.lists, inStep.wired.latest⟩
    change (unit.addRoot id).InStep table (added ++ [])
    rw [List.append_nil]
    exact ⟨inStep.tree, inStep.size, inStep.symbols, inStep.owned, inStep.older, wired⟩
  | edit id change =>
    have edited := inStep.edit id change
    rwa [← List.append_nil added] at edited

theorem buildAll (inStep : unit.InStep table added) (steps : List BuildStep) :
    (unit.buildAll steps).InStep table (added ++ BuildStep.additions steps) := by
  induction steps generalizing unit added with
  | nil =>
    change unit.InStep table (added ++ [])
    rwa [List.append_nil]
  | cons step steps ih =>
    have rest := ih (inStep.build step)
    rwa [List.append_assoc, ← BuildStep.additions_cons] at rest

end InStep

/-- Of the declarations that list it and have been added after it, the last one contains a declaration.
-/
theorem InStep.container (inStep : unit.InStep table added) {id : DeclId} {decl : Decl}
    (found : unit.tree.get? id = some decl) :
    (∀ last, decl.container = some last ↔ unit.tree.LastLister last id) ∧
      (decl.container = none ↔ ∀ parent, ¬unit.tree.ListsLater parent id) := by
  refine ⟨fun last => inStep.wired.container_eq_some_iff found, ?_⟩
  constructor
  · intro outside parent lists
    obtain ⟨container, inside, -⟩ := inStep.wired.latest id decl found parent lists
    simp [outside] at inside
  · intro unlisted
    rw [Option.eq_none_iff_forall_ne_some]
    intro container inside
    exact unlisted container (inStep.wired.lists id decl container found inside)

/-- Whatever is built, declarations and symbols stay in step, every new symbol can be bound, and
declarations are contained in the last one that lists them and has been added after them. -/
theorem inStep_of_buildAll (table : SymbolTable) (steps : List BuildStep) :
    ((start table).buildAll steps).InStep table (BuildStep.additions steps) ∧
    (∀ earlier later (addition : Addition), steps = earlier ++ addition.step :: later →
      addition.bindResult ((start table).buildAll earlier) = .ok .bound) ∧
    ∀ id decl, ((start table).buildAll steps).tree.get? id = some decl →
      (∀ last, decl.container = some last ↔
        ((start table).buildAll steps).tree.LastLister last id) ∧
      (decl.container = none ↔
        ∀ parent, ¬((start table).buildAll steps).tree.ListsLater parent id) := by
  have inStep := (InStep.start table).buildAll steps
  rw [List.nil_append] at inStep
  refine ⟨inStep, ?_, ?_⟩
  · intro earlier later addition _
    exact addition.bindResult_eq_bound _
  · intro id decl found
    exact inStep.container found

/-- A parameter that three functions list: one added before it, one that lists it twice and itself too,
and one that is edited after the last addition. -/
def shared : List BuildStep := [
  .add .declared (.function .plain) (.signature ⟨3⟩ [⟨1⟩] none) .dummy,
  .add .declared .valueParam (.required ⟨1⟩ (.ofName ⟨2⟩)) ⟨4, 5⟩,
  .add .placeholder (.function .plain) (.signature ⟨3⟩ [⟨1⟩, ⟨2⟩, ⟨1⟩, ⟨9⟩] none) .dummy,
  .addRoot ⟨2⟩,
  .add .declared (.function .plain) (.signature ⟨5⟩ [⟨1⟩] none) .dummy,
  .edit ⟨3⟩ { span := some ⟨6, 7⟩ }]

theorem inStep_of_buildAll_shared (table : SymbolTable) : ∃ decl,
    ((start table).buildAll shared).tree.get? ⟨1⟩ = some decl ∧
      decl.symbol = ⟨table.size + 1⟩ ∧ decl.container = some ⟨3⟩ := by
  obtain ⟨inStep, -, containers⟩ := inStep_of_buildAll table shared
  obtain ⟨decl, found, -, owner, -⟩ := inStep.owned 1 _ rfl
  refine ⟨decl, found, owner, ?_⟩
  rw [(containers ⟨1⟩ decl found).1]
  obtain ⟨around, foundLast, form, -⟩ := inStep.owned 3 _ rfl
  refine ⟨⟨by decide, around, foundLast, by rw [form]; decide⟩, ?_⟩
  intro other lists
  obtain ⟨-, inner, foundOther, -⟩ := lists
  have inside := DeclTree.lt_size_of_get? foundOther
  have size := inStep.size
  have four : (BuildStep.additions shared).length = 4 := rfl
  simp only
  omega

end CompilationUnit

end Relabel
