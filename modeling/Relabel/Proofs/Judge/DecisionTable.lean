import Relabel.Proofs.Judge.Reasons
import Relabel.Proofs.Judge.Transparency

namespace Relabel

section Bare

/-- A form without what no judge looks at: names, type parameters, receivers, members, bounds, defaults
and bodies. -/
def DeclForm.bare : DeclForm → DeclForm
  | .cls .. => .cls .empty [] none []
  | .ctor _ params _ => .ctor [] params none
  | .function _ _ _ params result _ => .signature .empty params result
  | .valueParam _ ty _ => .required .empty ty
  | .receiverParam ty => .receiverParam ty
  | .typeParam .. => .typeParam .empty []

theorem DeclForm.isSignature_bare (form : DeclForm) : form.bare.isSignature = form.isSignature := by
  cases form <;> rfl

/-- A declaration without what no judge looks at. What is around a function or constructor does not
matter to it. -/
def Decl.bare (decl : Decl) : Decl where
  symbol := decl.symbol
  form := decl.form.bare
  container := if decl.form.isSignature then none else decl.container

def DeclTree.bare (tree : DeclTree) : DeclTree := { tree with decls := tree.decls.map Decl.bare }

theorem DeclTree.get?_bare (tree : DeclTree) (id : DeclId) :
    tree.bare.get? id = (tree.get? id).map Decl.bare := by
  simp [get?, bare]

namespace Judge

def bare (judge : Judge) : Judge := { judge with tree := judge.tree.bare }

theorem declOf_bare (judge : Judge) (id : DeclId) :
    judge.bare.declOf id = (judge.declOf id).map Decl.bare := by
  simp only [declOf, DeclTree.get, bare, DeclTree.get?_bare]
  cases judge.tree.get? id <;> rfl

theorem paramRuling_bare (judge : Judge) (owner : DeclId) (params : List DeclId) :
    judge.bare.paramRuling owner params = judge.paramRuling owner params := by
  refine congrArg params.anyM (funext fun param => ?_)
  rw [declOf_bare]
  cases judge.declOf param with
  | error error => rfl
  | ok decl =>
    simp only [Except.map, bind, Except.bind, Decl.bare]
    cases decl.form <;> rfl

variable (judge : Judge) (symbols : SymbolTable) (outer : DeclId → Except PassError Bool)

theorem containerRuling_bare (decl : Decl) (inner : decl.form.isSignature = false) :
    judge.bare.containerRuling outer decl.bare = judge.containerRuling outer decl := by
  unfold containerRuling
  simp only [Decl.bare, inner, Bool.false_eq_true, if_false]
  cases decl.container with
  | none => rfl
  | some container =>
    simp only [declOf_bare]
    cases judge.declOf container with
    | error error => rfl
    | ok around => simp only [Except.map, bind, Except.bind, Decl.bare, DeclForm.isSignature_bare]

theorem rulingOn_bare (id : DeclId) (decl : Decl) (placeholder : Bool) :
    judge.bare.rulingOn outer id decl.bare placeholder = judge.rulingOn outer id decl placeholder := by
  have around := judge.containerRuling_bare outer decl
  have form : decl.bare.form = decl.form.bare := rfl
  unfold rulingOn
  rw [form]
  cases same : decl.form with
  | cls name typeParams thisReceiver members => rfl
  | ctor typeParams params body => simp only [DeclForm.bare, paramRuling_bare]
  | function name typeParams receiver params result body =>
    simp only [DeclForm.bare, DeclForm.signature, paramRuling_bare]
    rfl
  | valueParam name ty default =>
    rw [around (by rw [same]; rfl)]
    rfl
  | receiverParam ty =>
    rw [around (by rw [same]; rfl)]
    rfl
  | typeParam name bounds =>
    rw [around (by rw [same]; rfl)]
    rfl

theorem rulingWith_bare (id : DeclId) :
    judge.bare.rulingWith symbols outer id = judge.rulingWith symbols outer id := by
  rw [rulingWith, rulingWith, declOf_bare]
  cases judge.declOf id with
  | error error => rfl
  | ok decl =>
    have owner : decl.bare.symbol = decl.symbol := rfl
    simp only [Except.map, bind, Except.bind, owner, rulingOn_bare]

/-- What no judge looks at changes no ruling. -/
theorem ruling_bare (id : DeclId) : judge.bare.ruling symbols id = judge.ruling symbols id := by
  rw [ruling, ruling, rulingWith_bare, funext (judge.rulingWith_bare symbols _)]

end Judge

end Bare

/-- All that declarations list or are contained in is in the tree. -/
structure DeclTree.InArena (tree : DeclTree) : Prop where
  children : ∀ id decl, tree.get? id = some decl → ∀ child ∈ decl.form.children,
    ∃ inner, tree.get? child = some inner
  containers : ∀ id decl container, tree.get? id = some decl → decl.container = some container →
    ∃ around, tree.get? container = some around

namespace Judge

/-- The judge finds the declarations of the tree to be transformed or not, in whatever order it is asked
about them and however often. Each is transformed iff the decision table has a reason for it, and what
the table does not mention makes no difference. -/
structure FollowsTable (judge : Judge) (symbols : SymbolTable) (transformed : DeclId → Bool) :
    Prop where
  answers : ∀ ids : List DeclId, (∀ id ∈ ids, ∃ decl, judge.tree.get? id = some decl) →
    judge.interview symbols {} (ids.map .query) = ids.map fun id => .ok (transformed id)
  reason : ∀ id decl symbol, judge.tree.get? id = some decl →
    symbols.get? decl.symbol = some symbol → (transformed id = true ↔
      judge.Reason (fun other => transformed other = true) decl (symbol.isPlaceholder = true))
  unaffected : ∀ other : DeclTree, other.bare = judge.tree.bare →
    ∀ id decl, judge.tree.get? id = some decl →
      (Judge.mk other judge.predicate).freshAnswer symbols id = .ok (transformed id)

section Total

variable {judge : Judge} {symbols : SymbolTable} (total : judge.predicate.Total)
  (arena : judge.tree.InArena) (furnished : judge.Furnished symbols)

include total arena furnished

/-- A signature is ruled by its own types, so nothing needs to be known of what is around it. -/
theorem exists_ruling_of_isSignature {id : DeclId} {decl : Decl}
    (found : judge.tree.get? id = some decl) (signature : decl.form.isSignature = true) :
    ∃ verdict, judge.ruling symbols id = .ok verdict := by
  obtain ⟨symbol, known⟩ := furnished id decl found
  have around : Decides (judge.containerRuling (fun _ => pure false) decl)
      (judge.InTransformed (fun _ => False) decl) :=
    decides_containerRuling (arena.containers id decl · found) fun _ _ _ _ _ => .of_no not_false
  rw [ruling, rulingWith_of_isSignature found signature _ fun _ => pure false,
    rulingWith_of_known found known]
  exact (decides_rulingOn total (arena.children id decl found) around id _).exists_eq_ok

/-- Once the signatures are ruled, the table decides about everything. -/
theorem decides_ruling {id : DeclId} {decl : Decl} {symbol : Symbol}
    (found : judge.tree.get? id = some decl) (known : symbols.get? decl.symbol = some symbol) :
    Decides (judge.ruling symbols id)
      (judge.Reason (fun other => judge.ruling symbols other = .ok true) decl
        (symbol.isPlaceholder = true)) := by
  have around : Decides
      (judge.containerRuling (judge.rulingWith symbols fun _ => pure false) decl)
      (judge.InTransformed (fun other => judge.ruling symbols other = .ok true) decl) := by
    refine decides_containerRuling (arena.containers id decl · found) ?_
    intro container signature _ foundAround isSignature
    have same : judge.rulingWith symbols (fun _ => pure false) container =
        judge.ruling symbols container := rulingWith_of_isSignature foundAround isSignature _ _
    rw [same]
    exact .of_exists_eq_ok (exists_ruling_of_isSignature total arena furnished foundAround isSignature)
  rw [ruling, rulingWith_of_known found known]
  exact decides_rulingOn total (arena.children id decl found) around id symbol.isPlaceholder

/-- In a tree that stays in its arena, over a table that knows its symbols, a judge with a predicate
that never fails follows the decision table. -/
theorem exists_followsTable : ∃ transformed, judge.FollowsTable symbols transformed := by
  have ruled : ∀ id decl, judge.tree.get? id = some decl →
      judge.ruling symbols id = .ok (decide (judge.ruling symbols id = .ok true)) := by
    intro id decl found
    obtain ⟨symbol, known⟩ := furnished id decl found
    obtain ⟨verdict, answer⟩ := (decides_ruling total arena furnished found known).exists_eq_ok
    rw [answer]
    cases verdict <;> rfl
  refine ⟨fun id => decide (judge.ruling symbols id = .ok true), ?_, ?_, ?_⟩
  · intro ids inTree
    have queries : (ids.map Event.query).filterMap Event.query? = ids := by
      simp [List.filterMap_map, Function.comp_def, Event.query?]
    rw [interview_of_recalls furnished (recalls_empty []), queries]
    refine List.map_congr_left fun id inside => ?_
    obtain ⟨decl, found⟩ := inTree id inside
    exact ruled id decl found
  · intro id decl symbol found known
    have decided := (decides_ruling total arena furnished found known).iff_of_eq_ok (ruled id decl found)
    simpa only [decide_eq_true_eq] using decided
  · intro other same id decl found
    have bare : (Judge.mk other judge.predicate).bare = judge.bare := by
      rw [Judge.bare, Judge.bare, same]
    rw [freshAnswer_eq_ruling, ← ruling_bare, bare, ruling_bare]
    exact ruled id decl found

end Total

open DeclTree in
/-- The annotated parameter of the lambda makes no difference to the method around it. -/
theorem exists_followsTable_sample : ∃ transformed,
    (Judge.mk sample (.marked ⟨9⟩)).FollowsTable sampleSymbols transformed ∧
      [⟨7⟩, ⟨3⟩, ⟨4⟩, ⟨5⟩].map transformed = [true, true, false, false] := by
  have listed : ∀ decl ∈ sample.decls.toList, ∀ child ∈ decl.form.children,
      (sample.get? child).isSome = true := by decide +kernel
  have contained : ∀ decl ∈ sample.decls.toList, ∀ container ∈ decl.container,
      (sample.get? container).isSome = true := by decide +kernel
  have arena : sample.InArena := by
    constructor
    · intro id decl found child inside
      have known := listed decl (Array.mem_of_getElem? found).val child inside
      exact Option.isSome_iff_exists.1 known
    · intro id decl container found inside
      have known := contained decl (Array.mem_of_getElem? found).val container inside
      exact Option.isSome_iff_exists.1 known
  have total : (TypePredicate.marked ⟨9⟩).Total := fun ty => ⟨ty.carries ⟨9⟩, rfl⟩
  have furnished : (Judge.mk sample (.marked ⟨9⟩)).Furnished sampleSymbols := fun _ _ found =>
    exists_get?_sampleSymbols found List.mem_cons_self
  obtain ⟨transformed, follows⟩ := exists_followsTable total arena furnished
  have inTree : ∀ id ∈ [DeclId.mk 7, ⟨3⟩, ⟨4⟩, ⟨5⟩], (sample.get? id).isSome = true := by
    decide +kernel
  have answers := follows.answers [⟨7⟩, ⟨3⟩, ⟨4⟩, ⟨5⟩] fun id inside =>
    Option.isSome_iff_exists.1 (inTree id inside)
  refine ⟨transformed, follows, ?_⟩
  have asked : (Judge.mk sample (.marked ⟨9⟩)).interview sampleSymbols {}
      ([⟨7⟩, ⟨3⟩, ⟨4⟩, ⟨5⟩].map .query) = [.ok true, .ok true, .ok false, .ok false] := by
    decide +kernel
  rw [asked] at answers
  simpa using answers.symm

end Judge

end Relabel
