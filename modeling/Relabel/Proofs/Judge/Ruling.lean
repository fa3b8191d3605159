import Relabel.Judge
import Relabel.Proofs.Symbol.Replacement
import Relabel.Proofs.Yields

namespace Relabel

namespace Judge

def declOf (judge : Judge) (id : DeclId) : Except PassError Decl :=
  (judge.tree.get id).mapError .inTree

def typeRuling (judge : Judge) (owner : DeclId) (ty : TypeExpr) : Except PassError Bool :=
  (judge.predicate.reaches ty).mapError (.predicate owner)

def paramRuling (judge : Judge) (owner : DeclId) (params : List DeclId) : Except PassError Bool :=
  params.anyM fun param => do
    match (← judge.declOf param).form with
    | .valueParam _ ty _ => judge.typeRuling owner ty
    | _ => pure false

def resultRuling (judge : Judge) (owner : DeclId) : Option TypeExpr → Except PassError Bool
  | some ty => judge.typeRuling owner ty
  | none => pure false

def containerRuling (judge : Judge) (outer : DeclId → Except PassError Bool) (decl : Decl) :
    Except PassError Bool := do
  match decl.container with
  | none => pure false
  | some container =>
    if (← judge.declOf container).form.isSignature then outer container else pure false

/-- The ruling on a declaration whose symbol is a placeholder or not. -/
def rulingOn (judge : Judge) (outer : DeclId → Except PassError Bool) (id : DeclId) (decl : Decl)
    (placeholder : Bool) : Except PassError Bool :=
  match decl.form with
  | .cls .. => pure false
  | .ctor _ params _ => pure placeholder <||> judge.paramRuling id params
  | .function _ _ _ params result _ =>
    pure placeholder <||> judge.paramRuling id params <||> judge.resultRuling id result
  | .valueParam _ ty _ | .receiverParam ty =>
    pure placeholder <||> judge.typeRuling id ty <||> judge.containerRuling outer decl
  | .typeParam .. => pure placeholder <||> judge.containerRuling outer decl

/-- What a declaration is judged to be, where `outer` judges the signature around a parameter. -/
def rulingWith (judge : Judge) (symbols : SymbolTable) (outer : DeclId → Except PassError Bool)
    (id : DeclId) : Except PassError Bool := do
  let decl ← judge.declOf id
  let symbol ← (symbols.get decl.symbol).mapError .inTable
  judge.rulingOn outer id decl symbol.isPlaceholder

/-- The verdict on a declaration, as a function of the tree, the predicate and the symbols alone. -/
def ruling (judge : Judge) (symbols : SymbolTable) : DeclId → Except PassError Bool :=
  judge.rulingWith symbols (judge.rulingWith symbols fun _ => pure false)

/-- The remembered verdicts are right. -/
def Recalls (judge : Judge) (symbols : SymbolTable) (memory : Memory) : Prop :=
  ∀ id verdict, memory.verdicts.lookup id = some verdict → judge.ruling symbols id = .ok verdict

variable {judge : Judge} {symbols : SymbolTable}

theorem declOf_eq_ok_iff {id : DeclId} {decl : Decl} :
    judge.declOf id = .ok decl ↔ judge.tree.get? id = some decl := by
  rw [declOf, ← DeclTree.get_eq_ok_iff]
  cases judge.tree.get id <;> simp [Except.mapError]

theorem rulingWith_of_known {id : DeclId} {decl : Decl} {symbol : Symbol}
    (found : judge.tree.get? id = some decl) (known : symbols.get? decl.symbol = some symbol)
    (outer : DeclId → Except PassError Bool) :
    judge.rulingWith symbols outer id = judge.rulingOn outer id decl symbol.isPlaceholder := by
  rw [rulingWith, declOf_eq_ok_iff.2 found]
  change (symbols.get decl.symbol).mapError PassError.inTable >>= _ = _
  rw [SymbolTable.get_eq_ok_iff.2 known]
  rfl

theorem rulingWith_of_isSignature {id : DeclId} {decl : Decl} (found : judge.tree.get? id = some decl)
    (signature : decl.form.isSignature = true) (outer other : DeclId → Except PassError Bool) :
    judge.rulingWith symbols outer id = judge.rulingWith symbols other id := by
  have same (placeholder : Bool) :
      judge.rulingOn outer id decl placeholder = judge.rulingOn other id decl placeholder := by
    unfold rulingOn
    cases form : decl.form <;> simp [form, DeclForm.isSignature] at signature ⊢
  rw [rulingWith, rulingWith, declOf_eq_ok_iff.2 found]
  exact congrArg ((symbols.get decl.symbol).mapError PassError.inTable >>= ·)
    (funext fun symbol => same symbol.isPlaceholder)

theorem recalls_empty (consulted : List TypeExpr) : judge.Recalls symbols { consulted } :=
  fun _ _ found => nomatch found

/-- A remembered verdict is repeated, and a new one is the ruling too. -/
theorem memoized_yields {id : DeclId} {assess : Pass Memory Bool}
    (assessed : Pass.Yields (judge.Recalls symbols) assess (judge.ruling symbols id)) :
    Pass.Yields (judge.Recalls symbols) (memoized id assess) (judge.ruling symbols id) := by
  intro before recalls
  rw [memoized, EStateM.run_bind, EStateM.run_get]
  cases remembered : before.verdicts.lookup id with
  | some verdict =>
    simp only [remembered]
    exact ⟨recalls id verdict remembered, recalls⟩
  | none =>
    simp only [remembered]
    have here := assessed before recalls
    rw [EStateM.run_bind]
    generalize assess.run before = ran at here
    cases ran with
    | error error after => exact here
    | ok verdict after =>
      obtain ⟨ruled, still⟩ := here
      refine ⟨ruled, fun other answer found => ?_⟩
      change List.lookup other ((id, verdict) :: after.verdicts) = some answer at found
      rw [List.lookup_cons] at found
      split at found
      · next same =>
        rw [eq_of_beq same, ruled, Option.some.inj found]
      · exact still other answer found

theorem decl_yields (inv : Memory → Prop) (id : DeclId) :
    Pass.Yields inv (Pass.decl judge.tree id) (judge.declOf id) :=
  .ofExcept _ _

theorem annotated_yields (owner : DeclId) (ty : TypeExpr) :
    Pass.Yields (judge.Recalls symbols) (judge.annotated owner ty) (judge.typeRuling owner ty) := by
  intro before recalls
  have asked : Pass.Yields (judge.Recalls symbols)
      (Pass.ofExcept (.predicate owner) (judge.predicate.reaches ty)) (judge.typeRuling owner ty) :=
    .ofExcept _ _
  exact asked
    { before with consulted := (judge.predicate.consulted ty).reverse ++ before.consulted } recalls

theorem paramAnnotated_yields (owner : DeclId) (params : List DeclId) :
    Pass.Yields (judge.Recalls symbols) (judge.paramAnnotated owner params)
      (judge.paramRuling owner params) := by
  refine .anyM params fun param => (decl_yields _ param).bind fun decl _ => ?_
  cases decl.form with
  | valueParam name ty default => exact annotated_yields owner ty
  | _ => exact .of_pure false

theorem resultAnnotated_yields (owner : DeclId) (result : Option TypeExpr) :
    Pass.Yields (judge.Recalls symbols) (judge.resultAnnotated owner result)
      (judge.resultRuling owner result) := by
  cases result with
  | none => exact .of_pure false
  | some ty => exact annotated_yields owner ty

theorem containerTransformed_yields {outer : DeclId → Pass Memory Bool}
    {outerRuling : DeclId → Except PassError Bool}
    (above : ∀ id decl, judge.tree.get? id = some decl → decl.form.isSignature = true →
      Pass.Yields (judge.Recalls symbols) (outer id) (outerRuling id)) (decl : Decl) :
    Pass.Yields (judge.Recalls symbols) (judge.containerTransformed outer decl)
      (judge.containerRuling outerRuling decl) := by
  unfold containerTransformed containerRuling
  cases decl.container with
  | none => exact .of_pure false
  | some container =>
    refine (decl_yields _ container).bind fun around known => ?_
    split
    · next signature =>
      exact above container around (declOf_eq_ok_iff.1 known) signature
    · exact .of_pure false

theorem assess_yields {outer : DeclId → Pass Memory Bool}
    {outerRuling : DeclId → Except PassError Bool}
    (above : ∀ id decl, judge.tree.get? id = some decl → decl.form.isSignature = true →
      Pass.Yields (judge.Recalls symbols) (outer id) (outerRuling id)) (id : DeclId) :
    Pass.Yields (judge.Recalls symbols) (judge.assess symbols outer id)
      (judge.rulingWith symbols outerRuling id) := by
  refine (decl_yields _ id).bind fun decl _ => ?_
  refine Pass.Yields.bind (.ofExcept _ _) fun symbol _ => ?_
  have placeholder : Pass.Yields (judge.Recalls symbols) (pure symbol.isPlaceholder)
      (pure symbol.isPlaceholder) := .of_pure _
  unfold rulingOn
  cases decl.form with
  | cls name typeParams thisReceiver members => exact .of_pure false
  | ctor typeParams params body => exact placeholder.orM (paramAnnotated_yields id params)
  | function name typeParams receiver params result body =>
    exact placeholder.orM ((paramAnnotated_yields id params).orM (resultAnnotated_yields id result))
  | valueParam name ty default =>
    exact placeholder.orM ((annotated_yields id ty).orM (containerTransformed_yields above decl))
  | receiverParam ty =>
    exact placeholder.orM ((annotated_yields id ty).orM (containerTransformed_yields above decl))
  | typeParam name bounds => exact placeholder.orM (containerTransformed_yields above decl)

theorem signatureVerdict_yields {id : DeclId} {decl : Decl}
    (found : judge.tree.get? id = some decl) (signature : decl.form.isSignature = true) :
    Pass.Yields (judge.Recalls symbols) (judge.signatureVerdict symbols id)
      (judge.ruling symbols id) := by
  refine memoized_yields ?_
  rw [ruling, rulingWith_of_isSignature found signature _ fun _ => pure false]
  exact assess_yields (fun _ _ _ _ => .of_pure false) id

/-- Whatever right verdicts are remembered, the verdict is the ruling. -/
theorem verdict_yields (judge : Judge) (symbols : SymbolTable) (id : DeclId) :
    Pass.Yields (judge.Recalls symbols) (judge.verdict symbols id) (judge.ruling symbols id) := by
  refine memoized_yields (assess_yields ?_ id)
  intro above decl found signature
  have same : judge.ruling symbols above = judge.rulingWith symbols (fun _ => pure false) above :=
    rulingWith_of_isSignature found signature _ _
  rw [← same]
  exact signatureVerdict_yields found signature

/-- A judge that remembers nothing yet gives this verdict. -/
def Finds (judge : Judge) (symbols : SymbolTable) (id : DeclId) (verdict : Bool) : Prop :=
  ∃ memory, (judge.verdict symbols id).run {} = .ok verdict memory

/-- A judge that remembers nothing yet gives the ruling. -/
theorem verdict_run_eq_ok_iff {id : DeclId} {verdict : Bool} :
    (∃ memory, (judge.verdict symbols id).run {} = .ok verdict memory) ↔
      judge.ruling symbols id = .ok verdict :=
  (verdict_yields judge symbols id).run_eq_ok_iff (recalls_empty [])

theorem finds_iff {id : DeclId} {verdict : Bool} :
    judge.Finds symbols id verdict ↔ judge.ruling symbols id = .ok verdict :=
  verdict_run_eq_ok_iff

end Judge

end Relabel
