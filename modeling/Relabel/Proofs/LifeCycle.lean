import Relabel.Proofs.Asking

namespace Relabel

open SymbolTable (Request Served)

/-- A step of building a tree. -/
inductive BuildStep where
  | add (origin : Symbol.Origin) (kind : Symbol.Kind) (form : DeclForm) (span : Span)
  | addRoot (id : DeclId)
  | edit (id : DeclId) (change : DeclEdit)

namespace CompilationUnit

def build (unit : CompilationUnit) : BuildStep → CompilationUnit
  | .add origin kind form span => (unit.add origin kind form span).2
  | .addRoot id => unit.addRoot id
  | .edit id change => (unit.edit? id change).getD unit

def buildAll (unit : CompilationUnit) (steps : List BuildStep) : CompilationUnit :=
  steps.foldl build unit

/-- A declaration that is added asks for its symbol, and then for the binding of that. -/
def stepRequests (unit : CompilationUnit) : BuildStep → List Request
  | .add origin kind _ span =>
    [.add kind origin (some span),
      .bind ⟨unit.symbols.size⟩ ⟨unit.tree.id, ⟨unit.tree.size⟩⟩ span]
  | .addRoot _ | .edit .. => []

/-- The requests that building puts to the table. -/
def buildRequests (unit : CompilationUnit) : List BuildStep → List Request
  | [] => []
  | step :: steps => unit.stepRequests step ++ (unit.build step).buildRequests steps

end CompilationUnit

/-- The requests that a relabelling puts to the table: those of the copy, and then those of binding if
there is a copy. -/
def DeclTree.relabelRequests (tree : DeclTree) (predicate : TypePredicate) (table : SymbolTable) :
    List Request :=
  tree.copyRequests (.selective ⟨tree, predicate⟩) table {} ++
    match (tree.copy predicate).run { symbols := table } with
    | .ok copy middle => copy.tree.bindRequests middle.symbols
    | .error .. => []

/-- What can be done with a symbol table. -/
inductive Operation : Type 1 where
  | add (kind : Symbol.Kind) (origin : Symbol.Origin) (source : Option Span)
  | addPlaceholder (kind : Symbol.Kind) (source : Option Span)
  | bind (id : SymbolId) (site : DeclSite) (span : Span)
  | takeTree
  | replace (old : SymbolId) (transformed : Bool)
  | build (steps : List BuildStep)
  | copy (tree : DeclTree) (predicate : TypePredicate)
  | copyWith {σ : Type} (tree : DeclTree) (chooser : Chooser.Requesting σ) (memory : σ)
  | bindPlaceholders (tree : DeclTree)
  | checkBound (tree : DeclTree)
  | relabel (tree : DeclTree) (predicate : TypePredicate) (options : RelabelOptions)

/-- The table that a pass leaves behind, also where it fails, with the tree in its result. -/
def Pass.outcome {σ α : Type} (pass : Pass σ α) (before : σ) (table : σ → SymbolTable)
    (tree : α → TreeId) : SymbolTable × Option TreeId :=
  match pass.run before with
  | .ok value after => (table after, some (tree value))
  | .error _ after => (table after, none)

namespace Operation

/-- The table after an operation, whether it fails or not, with the number of the tree that it has
made. To check bindings only reads the table. -/
def run (table : SymbolTable) : Operation → SymbolTable × Option TreeId
  | add kind origin source => ((table.add kind origin source).2, none)
  | addPlaceholder kind source => ((table.addPlaceholder kind source).2, none)
  | bind id site span =>
    match table.bind id site span with
    | .ok (_, after) => (after, none)
    | .error _ => (table, none)
  | takeTree => (table.takeTree.2, some table.takeTree.1)
  | replace old transformed =>
    match table.replacementFor old transformed with
    | .ok (_, after) => (after, none)
    | .error _ => (table, none)
  | build steps =>
    let unit := (CompilationUnit.start table).buildAll steps
    (unit.symbols, some unit.tree.id)
  | copy tree predicate =>
    (tree.copy predicate).outcome { symbols := table } (·.symbols) (·.tree.id)
  | copyWith tree chooser memory =>
    (tree.copyWith chooser.choose).outcome { symbols := table, memory } (·.symbols) (·.tree.id)
  | bindPlaceholders tree => (tree.bindPlaceholders.stateAfter table, none)
  | checkBound _ => (table, none)
  | relabel tree predicate options =>
    (tree.relabel predicate options).outcome { symbols := table } (·.symbols) (·.tree.id)

/-- The table after operations one after the other, with the numbers of the trees that they have
made. -/
def runAll (table : SymbolTable) : List Operation → SymbolTable × List TreeId
  | [] => (table, [])
  | operation :: operations =>
    let (middle, made) := operation.run table
    let (after, others) := runAll middle operations
    (after, made.toList ++ others)

/-- The requests that an operation puts to a table, in their order. -/
def requests (table : SymbolTable) : Operation → List Request
  | add kind origin source => [.add kind origin source]
  | addPlaceholder kind source => [.add kind .placeholder source]
  | bind id site span => [.bind id site span]
  | takeTree => [.takeTree]
  | replace old transformed => (table.replacementRequest? old transformed).toList
  | build steps => .takeTree :: (CompilationUnit.start table).buildRequests steps
  | copy tree predicate => tree.copyRequests (.selective ⟨tree, predicate⟩) table {}
  | copyWith tree chooser memory => tree.copyRequests chooser table memory
  | bindPlaceholders tree => tree.bindRequests table
  | checkBound _ => []
  | relabel tree predicate _ => tree.relabelRequests predicate table

/-- The requests of operations one after the other, a list for each operation. -/
def requestsAll (table : SymbolTable) : List Operation → List (List Request)
  | [] => []
  | operation :: operations =>
    operation.requests table :: requestsAll (operation.run table).1 operations

/-- The requests that an operation can put to the table. A symbol is bound with the span of the
declaration that it is bound to. -/
def Asks : Operation → Request → Prop
  | add kind origin source, request => request = .add kind origin source
  | addPlaceholder kind source, request => request = .add kind .placeholder source
  | bind id site span, request => request = .bind id site span
  | takeTree, request => request = .takeTree
  | replace _ _, request => ∃ kind source, request = .add kind .placeholder source
  | build steps, request => request = .takeTree ∨
      ∃ origin kind form span, BuildStep.add origin kind form span ∈ steps ∧
        (request = .add kind origin (some span) ∨ ∃ id site, request = .bind id site span)
  | copy _ _, request => request = .takeTree ∨ ∃ kind source, request = .add kind .placeholder source
  | copyWith _ chooser _, request => request = .takeTree ∨
      ∃ id old state, request ∈ chooser.requests id old state
  | bindPlaceholders tree, request => ∃ id decl, tree.Reachable id ∧ tree.get? id = some decl ∧
      request = .bind decl.symbol ⟨tree.id, id⟩ decl.span
  | checkBound _, _ => False
  | relabel tree _ _, request => request = .takeTree ∨
      (∃ kind source, request = .add kind .placeholder source) ∨
      ∃ id decl symbol site, tree.Reachable id ∧ tree.get? id = some decl ∧
        request = .bind symbol site decl.span

end Operation

namespace CompilationUnit

theorem declare_snd (unit : CompilationUnit) (decl : Decl) : (unit.declare decl).2 =
    ⟨unit.symbols.serve (.bind decl.symbol ⟨unit.tree.id, ⟨unit.tree.size⟩⟩ decl.span),
      (unit.tree.add decl).2⟩ := by
  cases bound : unit.symbols.bind decl.symbol ⟨unit.tree.id, ⟨unit.tree.size⟩⟩ decl.span with
  | ok result =>
    have here : unit.symbols.bind decl.symbol ⟨(unit.tree.add decl).2.id, (unit.tree.add decl).1⟩
        decl.span = .ok result := bound
    simp only [declare, here, SymbolTable.serve, bound]
  | error error =>
    have here : unit.symbols.bind decl.symbol ⟨(unit.tree.add decl).2.id, (unit.tree.add decl).1⟩
        decl.span = .error error := bound
    simp only [declare, here, SymbolTable.serve, bound]

/-- To build is to ask for the symbols of the declarations and for their bindings. -/
theorem served_build (unit : CompilationUnit) (step : BuildStep) :
    Served (Operation.build [step]).Asks unit.symbols (unit.stepRequests step)
      (unit.build step).symbols ∧ (unit.build step).tree.id = unit.tree.id := by
  cases step with
  | add origin kind form span =>
    let symbols := unit.symbols.serve (.add kind origin (some span))
    let binding : Request := .bind ⟨unit.symbols.size⟩ ⟨unit.tree.id, ⟨unit.tree.size⟩⟩ span
    have declared : unit.build (.add origin kind form span) = (CompilationUnit.declare
        { unit with symbols } { symbol := ⟨unit.symbols.size⟩, form, span }).2 := rfl
    rw [declared, declare_snd]
    refine ⟨?_, rfl⟩
    have allocated : Served (Operation.build [.add origin kind form span]).Asks unit.symbols
        [.add kind origin (some span)] symbols :=
      .of_request _ (.inr ⟨origin, kind, form, span, List.mem_cons_self, .inl rfl⟩)
    have bound : Served (Operation.build [.add origin kind form span]).Asks symbols
        [binding] (symbols.serve binding) :=
      .of_request binding (.inr ⟨origin, kind, form, span, List.mem_cons_self, .inr ⟨_, _, rfl⟩⟩)
    exact allocated.trans bound
  | addRoot id => exact ⟨.refl _ _, rfl⟩
  | edit id change =>
    cases found : unit.tree.get? id with
    | none =>
      have same : unit.build (.edit id change) = unit := by
        simp [build, edit?, DeclTree.edit?, found]
      rw [same]
      exact ⟨.refl _ _, rfl⟩
    | some decl =>
      have same : unit.build (.edit id change) = { unit with tree := { unit.tree with
          decls := unit.tree.decls.setIfInBounds id.index (decl.edit change) } } := by
        simp [build, edit?, DeclTree.edit?, found]
      rw [same]
      exact ⟨.refl _ _, rfl⟩

theorem served_buildAll (unit : CompilationUnit) (steps : List BuildStep) :
    Served (Operation.build steps).Asks unit.symbols (unit.buildRequests steps)
      (unit.buildAll steps).symbols ∧ (unit.buildAll steps).tree.id = unit.tree.id := by
  induction steps generalizing unit with
  | nil => exact ⟨.refl _ _, rfl⟩
  | cons step steps ih =>
    obtain ⟨served, same⟩ := unit.served_build step
    obtain ⟨rest, sameRest⟩ := ih (unit.build step)
    refine ⟨(served.mono fun request asked => ?_).trans (rest.mono fun request asked => ?_),
      sameRest.trans same⟩
    · refine asked.imp_right fun added => ?_
      obtain ⟨origin, kind, form, span, listed, request⟩ := added
      have here : BuildStep.add origin kind form span ∈ step :: steps := by
        rw [List.mem_singleton.1 listed]
        exact List.mem_cons_self
      exact ⟨origin, kind, form, span, here, request⟩
    · refine asked.imp_right fun added => ?_
      obtain ⟨origin, kind, form, span, listed, request⟩ := added
      exact ⟨origin, kind, form, span, List.mem_cons_of_mem step listed, request⟩

end CompilationUnit

namespace DeclTree

section Copying

variable {σ : Type} {tree : DeclTree} {choose : Chooser σ} {before after : CopyState σ} {copy : Copy}

theorem id_addAll (tree : DeclTree) (decls : List Decl) : (tree.addAll decls).id = tree.id := by
  induction decls generalizing tree with
  | nil => rfl
  | cons decl decls ih => exact ih (tree.add decl).2

/-- A copy has the number that was the next one. -/
theorem id_of_copyWith (run : (tree.copyWith choose).run before = .ok copy after) :
    copy.tree.id = ⟨before.symbols.nextTree⟩ := by
  obtain ⟨owners, copied⟩ := exists_copied_of_copyWith run
  rw [copied.renamed]
  exact id_addAll _ _

theorem nextTree_lt_of_copyWith (run : (tree.copyWith choose).run before = .ok copy after)
    (chosen : ∀ id old, Pass.Maintains
      (fun state => before.symbols.nextTree < state.1.nextTree) (choose id old)) :
    before.symbols.nextTree < after.symbols.nextTree := by
  obtain ⟨owners, copied⟩ := exists_copied_of_copyWith run
  have refused (error : PassError) (failed : tree.declared = .error error) :
      before.symbols.nextTree < before.symbols.nextTree := by
    rw [copied.declared] at failed
    exact nomatch failed
  have taken : before.symbols.nextTree < before.symbols.takeTree.2.nextTree := Nat.lt_succ_self _
  have last : before.symbols.nextTree <
      ((tree.copyWith choose).stateAfter before).symbols.nextTree :=
    @maintained_of_copyWith σ (before.symbols.nextTree < ·.1.nextTree) tree choose before refused
      taken chosen
  rwa [Pass.stateAfter_of_ok run] at last

end Copying

section Selective

variable {tree : DeclTree} {predicate : TypePredicate} {before after : RelabelState} {copy : Copy}

theorem served_of_copy (tree : DeclTree) (predicate : TypePredicate) (table : SymbolTable) :
    Served (Operation.copy tree predicate).Asks table
      (tree.copyRequests (.selective ⟨tree, predicate⟩) table {})
      ((tree.copy predicate).stateAfter { symbols := table }).symbols := by
  rw [copy, Pass.stateAfter_within]
  refine tree.served_of_copyWith (.selective ⟨tree, predicate⟩) table {} (.inl rfl) ?_
  intro id old state request asked
  exact .inr (Chooser.Requesting.exists_of_verdictRequest?_eq_some (Option.mem_toList.1 asked))

theorem made_of_copy (run : (tree.copy predicate).run before = .ok copy after) :
    copy.tree.id = ⟨before.symbols.nextTree⟩ ∧
      before.symbols.nextTree < after.symbols.nextTree := by
  obtain ⟨last, walked, rfl⟩ := copy_run_eq_ok_iff.1 run
  refine ⟨id_of_copyWith walked, nextTree_lt_of_copyWith walked ?_⟩
  have lower (table : SymbolTable) (symbol : Symbol)
      (holds : before.symbols.nextTree < table.nextTree) :
      before.symbols.nextTree < (table.push symbol.standIn).nextTree := holds
  exact Chooser.maintains_selective lower _

/-- A relabelling binds with the spans of the declarations that it copies. -/
theorem served_of_relabel (tree : DeclTree) (predicate : TypePredicate) (options : RelabelOptions)
    (table : SymbolTable) : Served (Operation.relabel tree predicate options).Asks table
      (tree.relabelRequests predicate table)
      ((tree.relabel predicate options).stateAfter { symbols := table }).symbols := by
  have copied : Served (Operation.relabel tree predicate options).Asks table _ _ :=
    (tree.served_of_copy predicate table).mono fun request asked => asked.imp_right .inl
  rw [relabelRequests]
  cases run : (tree.copy predicate).run { symbols := table } with
  | error error middle =>
    rw [Pass.stateAfter_of_error run] at copied
    rw [stateAfter_relabel_of_error run]
    exact copied.trans (.refl _ _)
  | ok copy middle =>
    rw [Pass.stateAfter_of_ok run] at copied
    rw [stateAfter_relabel_of_copy run]
    refine copied.trans (copy.tree.served_of_bindPlaceholders middle.symbols ?_)
    intro there image _ foundImage
    obtain ⟨id, decl, reached, -, found, same⟩ := (copiedTo_of_copy run).exists_source foundImage
    refine .inr (.inr ⟨id, decl, image.symbol, ⟨copy.tree.id, there⟩, reached, found, ?_⟩)
    rw [same.span]

theorem made_of_relabel {options : RelabelOptions} {out : Relabelled}
    (run : (tree.relabel predicate options).run before = .ok out after) :
    out.tree.id = ⟨before.symbols.nextTree⟩ ∧ before.symbols.nextTree < after.symbols.nextTree := by
  obtain ⟨middle, copied, binding, -⟩ := relabel_run_eq_ok_iff.1 run
  obtain ⟨same, lower⟩ := made_of_copy copied
  have bound : Pass.Maintains (fun table => before.symbols.nextTree < table.nextTree)
      out.tree.bindPlaceholders := maintains_bindPlaceholders fun _ _ _ _ lower _ _ _ _ => lower
  have last := bound middle.symbols lower
  rw [Pass.stateAfter_of_ok binding] at last
  exact ⟨same, last⟩

end Selective

end DeclTree

theorem Pass.outcome_fst {σ α : Type} (pass : Pass σ α) (before : σ) (table : σ → SymbolTable)
    (tree : α → TreeId) : (pass.outcome before table tree).1 = table (pass.stateAfter before) := by
  rw [outcome, stateAfter]
  cases pass.run before <;> rfl

theorem Pass.exists_run_of_outcome {σ α : Type} {pass : Pass σ α} {before : σ}
    {table : σ → SymbolTable} {tree : α → TreeId} {made : TreeId}
    (here : made ∈ (pass.outcome before table tree).2) : ∃ value after,
      pass.run before = .ok value after ∧ made = tree value := by
  rw [outcome] at here
  cases run : pass.run before with
  | ok value after =>
    rw [run] at here
    exact ⟨value, after, rfl, (Option.mem_some.1 here).symm⟩
  | error error after =>
    rw [run] at here
    exact nomatch here

namespace Operation

/-- Whatever an operation does to the table is an answer to the requests that it puts. -/
theorem served_run (operation : Operation) (table : SymbolTable) :
    Served operation.Asks table (operation.requests table) (operation.run table).1 := by
  cases operation with
  | add kind origin source => exact .of_request (.add kind origin source) rfl
  | addPlaceholder kind source => exact .of_request (.add kind .placeholder source) rfl
  | bind id site span =>
    have same : (run table (.bind id site span)).1 = table.serve (.bind id site span) := by
      rw [run, SymbolTable.serve]
      cases table.bind id site span <;> rfl
    rw [same]
    exact .of_request (.bind id site span) rfl
  | takeTree => exact .of_request .takeTree rfl
  | replace old transformed =>
    refine ⟨fun request asked => ?_, ?_⟩
    · exact SymbolTable.exists_of_replacementRequest?_eq_some (Option.mem_toList.1 asked)
    · rcases table.replacementFor_cases old transformed with ⟨error, failed, unasked⟩ | ⟨new, done⟩
      · simp only [run, requests, failed, unasked]
        rfl
      · simp only [run, requests, done]
  | build steps =>
    have started : Served (build steps).Asks table [.takeTree]
        (CompilationUnit.start table).symbols := .of_request .takeTree (.inl rfl)
    exact started.trans (CompilationUnit.served_buildAll _ steps).1
  | copy tree predicate =>
    rw [run, Pass.outcome_fst]
    exact tree.served_of_copy predicate table
  | copyWith tree chooser memory =>
    rw [run, Pass.outcome_fst]
    exact tree.served_of_copyWith chooser table memory (.inl rfl)
      fun id old state request asked => .inr ⟨id, old, state, asked⟩
  | bindPlaceholders tree =>
    exact tree.served_of_bindPlaceholders table fun id decl reached found =>
      ⟨id, decl, reached, found, rfl⟩
  | checkBound tree => exact .refl _ table
  | relabel tree predicate options =>
    rw [run, Pass.outcome_fst]
    exact tree.served_of_relabel predicate options table

/-- A selective copy is a copy with the selective chooser, which remembers nothing at first. -/
theorem run_copy (tree : DeclTree) (predicate : TypePredicate) (table : SymbolTable) :
    (copy tree predicate).run table =
      (copyWith tree (.selective ⟨tree, predicate⟩) {}).run table := by
  rw [run, run, Pass.outcome, Pass.outcome, DeclTree.copy, Pass.run_within]
  simp only [Chooser.Requesting.selective]
  cases (tree.copyWith (.selective ⟨tree, predicate⟩)).run { symbols := table, memory := {} } <;> rfl

/-- The tree that an operation makes has a number that was not taken before and is taken then. -/
theorem made_run {operation : Operation} {table : SymbolTable} {made : TreeId}
    (here : made ∈ (operation.run table).2) :
    table.nextTree ≤ made.index ∧ made.index < (operation.run table).1.nextTree := by
  have first {after : SymbolTable} (same : made = ⟨table.nextTree⟩)
      (lower : table.nextTree < after.nextTree) :
      table.nextTree ≤ made.index ∧ made.index < after.nextTree := by
    rw [same]
    exact ⟨Nat.le_refl _, lower⟩
  cases operation with
  | add kind origin source => exact nomatch here
  | addPlaceholder kind source => exact nomatch here
  | bind id site span =>
    have none : (run table (.bind id site span)).2 = none := by
      rw [run]
      cases table.bind id site span <;> rfl
    rw [none] at here
    exact nomatch here
  | takeTree => exact first (Option.mem_some.1 here).symm (Nat.lt_succ_self _)
  | replace old transformed =>
    have none : (run table (.replace old transformed)).2 = none := by
      rw [run]
      cases table.replacementFor old transformed <;> rfl
    rw [none] at here
    exact nomatch here
  | build steps =>
    obtain ⟨served, same⟩ := CompilationUnit.served_buildAll (.start table) steps
    exact first ((Option.mem_some.1 here).symm.trans same) served.nextTree_le
  | copy tree predicate =>
    obtain ⟨copy, after, ran, rfl⟩ := Pass.exists_run_of_outcome here
    obtain ⟨same, lower⟩ := DeclTree.made_of_copy ran
    rw [run, Pass.outcome_fst, Pass.stateAfter_of_ok ran]
    exact first same lower
  | copyWith tree chooser memory =>
    obtain ⟨copy, after, ran, rfl⟩ := Pass.exists_run_of_outcome here
    rw [run, Pass.outcome_fst, Pass.stateAfter_of_ok ran]
    refine first (DeclTree.id_of_copyWith ran) (DeclTree.nextTree_lt_of_copyWith ran ?_)
    intro id old state lower
    change table.nextTree < _ at lower ⊢
    rw [chooser.served, SymbolTable.nextTree_serveAll]
    exact Nat.lt_add_right _ lower
  | bindPlaceholders tree => exact nomatch here
  | checkBound tree => exact nomatch here
  | relabel tree predicate options =>
    obtain ⟨out, after, ran, rfl⟩ := Pass.exists_run_of_outcome here
    obtain ⟨same, lower⟩ := DeclTree.made_of_relabel ran
    rw [run, Pass.outcome_fst, Pass.stateAfter_of_ok ran]
    exact first same lower

/-- Requests that the operations of a run can have put to the table, a list for each operation: they
account for the table after the run, and for the trees that the operations have made. -/
structure History (operations : List Operation) (before : SymbolTable)
    (requests : List (List Request)) : Prop where
  asked : List.Forall₂ (fun operation asked => ∀ request ∈ asked, operation.Asks request)
    operations requests
  table : (runAll before operations).1 = before.serveAll requests.flatten
  trees : (runAll before operations).2.Sublist (before.handedOut requests.flatten)

theorem history_requestsAll (operations : List Operation) (before : SymbolTable) :
    History operations before (requestsAll before operations) := by
  induction operations generalizing before with
  | nil => exact ⟨.nil, rfl, .refl _⟩
  | cons operation operations ih =>
    obtain ⟨asked, served⟩ := operation.served_run before
    have history := ih (operation.run before).1
    refine ⟨.cons asked history.asked, ?_, ?_⟩
    · change (runAll (operation.run before).1 operations).1 = _
      rw [history.table, requestsAll, List.flatten_cons, SymbolTable.serveAll_append, served]
    · change ((operation.run before).2.toList ++
        (runAll (operation.run before).1 operations).2).Sublist _
      rw [requestsAll, List.flatten_cons, SymbolTable.handedOut_append, ← served]
      refine List.Sublist.append ?_ history.trees
      cases made : (operation.run before).2 with
      | none => exact List.nil_sublist _
      | some tree =>
        have between := made_run (Option.mem_def.2 made)
        rw [served] at between
        exact List.singleton_sublist.2 (SymbolTable.mem_handedOut_iff.2 between)

/-- Whatever is done with a table, in whatever order and whatever of it fails: from each moment of
the run to its end the symbols have lived by the rules, so that a binding once made stands, and the
numbers handed out for trees are distinct and new. -/
theorem lifeCycle_of_runAll (operations : List Operation) (before : SymbolTable) :
    History operations before (requestsAll before operations) ∧
      ∀ earlier later, (requestsAll before operations).flatten = earlier ++ later →
        (before.serveAll earlier).LifeCycle later (runAll before operations).1 := by
  have history := history_requestsAll operations before
  refine ⟨history, fun earlier later split => ?_⟩
  rw [history.table, split, SymbolTable.serveAll_append]
  exact SymbolTable.lifeCycle_serveAll _ later

/-- Builds a function with a marked result, binds a symbol that was there before, relabels the tree, tries
to bind both symbols again, and copies the tree with a placeholder for the function. -/
def sampleRun : List Operation :=
  let form : DeclForm := .signature ⟨1⟩ [] (some { head := .named ⟨2⟩, annotations := [⟨9⟩] })
  let tree (id : TreeId) (symbol : SymbolId) : DeclTree :=
    { id, roots := [⟨0⟩], decls := #[{ symbol, form, span := ⟨3, 4⟩ }] }
  [.build [.add .declared (.function .plain) form ⟨3, 4⟩, .addRoot ⟨0⟩],
    .bind ⟨0⟩ ⟨⟨0⟩, ⟨0⟩⟩ ⟨5, 6⟩,
    .relabel (tree ⟨0⟩ ⟨1⟩) (.marked ⟨9⟩) {},
    .bind ⟨0⟩ ⟨⟨1⟩, ⟨0⟩⟩ ⟨7, 8⟩,
    .bindPlaceholders (tree ⟨1⟩ ⟨2⟩),
    .copyWith (tree ⟨0⟩ ⟨1⟩) (.listed [⟨0⟩]) ()]

/-- To try to bind a symbol again is a request like another, and it changes nothing. -/
example :
    let before : SymbolTable := { symbols := #[⟨.cls, .declared, none, none⟩] }
    requestsAll before sampleRun = [
      [.takeTree, .add (.function .plain) .declared (some ⟨3, 4⟩), .bind ⟨1⟩ ⟨⟨0⟩, ⟨0⟩⟩ ⟨3, 4⟩],
      [.bind ⟨0⟩ ⟨⟨0⟩, ⟨0⟩⟩ ⟨5, 6⟩],
      [.takeTree, .add (.function .plain) .placeholder (some ⟨3, 4⟩), .bind ⟨2⟩ ⟨⟨1⟩, ⟨0⟩⟩ ⟨3, 4⟩],
      [.bind ⟨0⟩ ⟨⟨1⟩, ⟨0⟩⟩ ⟨7, 8⟩],
      [.bind ⟨2⟩ ⟨⟨1⟩, ⟨0⟩⟩ ⟨3, 4⟩],
      [.takeTree, .add (.function .plain) .placeholder (some ⟨3, 4⟩)]] ∧
    runAll before sampleRun = ({
      nextTree := 3
      symbols := #[
        ⟨.cls, .declared, some ⟨5, 6⟩, some ⟨⟨0⟩, ⟨0⟩⟩⟩,
        ⟨.function .plain, .declared, some ⟨3, 4⟩, some ⟨⟨0⟩, ⟨0⟩⟩⟩,
        ⟨.function .plain, .placeholder, some ⟨3, 4⟩, some ⟨⟨1⟩, ⟨0⟩⟩⟩,
        ⟨.function .plain, .placeholder, some ⟨3, 4⟩, none⟩] }, [⟨0⟩, ⟨1⟩, ⟨2⟩]) := by
  decide +kernel

end Operation

end Relabel
