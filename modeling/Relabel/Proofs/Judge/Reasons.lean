import Relabel.Proofs.Judge.Growth

namespace Relabel

/-- The answer is found, and it is yes iff the property holds. -/
def Decides {ε : Type} (answer : Except ε Bool) (property : Prop) : Prop :=
  ∃ verdict, answer = .ok verdict ∧ (verdict = true ↔ property)

namespace Decides

variable {ε α : Type} {p q : Prop}

theorem of_ok {answer : Except ε Bool} {verdict : Bool} (found : answer = .ok verdict) :
    Decides answer (verdict = true) :=
  ⟨verdict, found, Iff.rfl⟩

theorem of_pure (verdict : Bool) : Decides (pure verdict : Except ε Bool) (verdict = true) :=
  of_ok rfl

theorem congr {answer : Except ε Bool} (decides : Decides answer p) (same : p ↔ q) :
    Decides answer q := by
  obtain ⟨verdict, found, holds⟩ := decides
  exact ⟨verdict, found, holds.trans same⟩

/-- An answer that does not look at anything that could hold. -/
theorem of_no (never : ¬p) : Decides (pure false : Except ε Bool) p :=
  (of_pure false).congr (by simp [never])

theorem mapError {δ : Type} {answer : Except ε Bool} (decides : Decides answer p)
    (wrap : ε → δ) : Decides (answer.mapError wrap) p := by
  obtain ⟨verdict, rfl, holds⟩ := decides
  exact ⟨verdict, rfl, holds⟩

theorem orM {left right : Except ε Bool} (one : Decides left p) (other : Decides right q) :
    Decides (left <||> right) (p ∨ q) := by
  obtain ⟨first, rfl, holds⟩ := one
  cases first with
  | true => exact ⟨true, rfl, by simp [← holds]⟩
  | false =>
    obtain ⟨second, rfl, holdsSecond⟩ := other
    exact ⟨second, rfl, by simp [← holds, holdsSecond]⟩

theorem anyM {test : α → Except ε Bool} {property : α → Prop} {list : List α}
    (each : ∀ a ∈ list, Decides (test a) (property a)) :
    Decides (list.anyM test) (∃ a ∈ list, property a) := by
  induction list with
  | nil => exact of_no (by simp)
  | cons a list ih =>
    obtain ⟨first, found, holds⟩ := each a List.mem_cons_self
    have rest := ih fun other inside => each other (List.mem_cons_of_mem a inside)
    rw [List.anyM, found]
    cases first with
    | true => exact ⟨true, rfl, by simp [← holds]⟩
    | false => exact rest.congr (by simp [← holds])

theorem exists_eq_ok {answer : Except ε Bool} (decides : Decides answer p) :
    ∃ verdict, answer = .ok verdict := by
  obtain ⟨verdict, found, -⟩ := decides
  exact ⟨verdict, found⟩

/-- An answer that is found decides whether it is yes. -/
theorem of_exists_eq_ok {answer : Except ε Bool} (found : ∃ verdict, answer = .ok verdict) :
    Decides answer (answer = .ok true) := by
  obtain ⟨verdict, rfl⟩ := found
  exact (of_ok rfl).congr (by simp)

theorem iff_of_eq_ok {answer : Except ε Bool} {verdict : Bool} (decides : Decides answer p)
    (found : answer = .ok verdict) : verdict = true ↔ p := by
  obtain ⟨same, foundSame, holds⟩ := decides
  obtain rfl := Except.ok.inj (found.symm.trans foundSame)
  exact holds

end Decides

namespace TypePredicate

/-- The predicate classifies every type. -/
def Total (predicate : TypePredicate) : Prop :=
  ∀ ty, ∃ answer, predicate ty = .ok answer

/-- The predicate holds of the type itself or of one of its direct arguments. -/
def Reaches (predicate : TypePredicate) (ty : TypeExpr) : Prop :=
  predicate ty = .ok true ∨ ∃ arg ∈ ty.args, predicate arg = .ok true

theorem Total.decides {predicate : TypePredicate} (total : predicate.Total) (ty : TypeExpr) :
    Decides (predicate ty) (predicate ty = .ok true) :=
  .of_exists_eq_ok (total ty)

theorem Total.decides_reaches {predicate : TypePredicate} (total : predicate.Total)
    (ty : TypeExpr) : Decides (predicate.reaches ty) (predicate.Reaches ty) := by
  have searched : Decides (predicate.reaches ty) (∃ part ∈ ty :: ty.args, predicate part = .ok true) :=
    .anyM fun part _ => total.decides part
  exact searched.congr (by simp [Reaches])

end TypePredicate

namespace Judge

/-- One of the parameters is a value parameter with a type that the predicate reaches. -/
def ParamReached (judge : Judge) (params : List DeclId) : Prop :=
  ∃ param ∈ params, ∃ decl name ty default, judge.tree.get? param = some decl ∧
    decl.form = .valueParam name ty default ∧ judge.predicate.Reaches ty

/-- The declaration is contained in a function or constructor that is transformed. -/
def InTransformed (judge : Judge) (transformed : DeclId → Prop) (decl : Decl) : Prop :=
  ∃ container around, decl.container = some container ∧ judge.tree.get? container = some around ∧
    around.form.isSignature = true ∧ transformed container

/-- The decision table: what makes a declaration transformed, whose symbol is a placeholder or not and
where it is known which functions and constructors are transformed. -/
def Reason (judge : Judge) (transformed : DeclId → Prop) (decl : Decl) (placeholder : Prop) : Prop :=
  match decl.form with
  | .cls .. => False
  | .ctor _ params _ => placeholder ∨ judge.ParamReached params
  | .function _ _ _ params result _ =>
    placeholder ∨ judge.ParamReached params ∨ ∃ ty, result = some ty ∧ judge.predicate.Reaches ty
  | .valueParam _ ty _ | .receiverParam ty =>
    placeholder ∨ judge.predicate.Reaches ty ∨ judge.InTransformed transformed decl
  | .typeParam .. => placeholder ∨ judge.InTransformed transformed decl

variable {judge : Judge} (total : judge.predicate.Total)

section Types

include total

theorem decides_typeRuling (owner : DeclId) (ty : TypeExpr) :
    Decides (judge.typeRuling owner ty) (judge.predicate.Reaches ty) :=
  (total.decides_reaches ty).mapError _

theorem decides_paramRuling (owner : DeclId) {params : List DeclId}
    (known : ∀ param ∈ params, ∃ decl, judge.tree.get? param = some decl) :
    Decides (judge.paramRuling owner params) (judge.ParamReached params) := by
  refine .anyM fun param inside => ?_
  obtain ⟨decl, found⟩ := known param inside
  simp only [declOf_eq_ok_iff.2 found, bind, Except.bind]
  cases form : decl.form with
  | valueParam name ty default =>
    exact (decides_typeRuling total owner ty).congr (by simp [found, form])
  | _ => exact .of_no (by simp [found, form])

theorem decides_resultRuling (owner : DeclId) (result : Option TypeExpr) :
    Decides (judge.resultRuling owner result)
      (∃ ty, result = some ty ∧ judge.predicate.Reaches ty) := by
  cases result with
  | none => exact .of_no (by simp)
  | some ty => exact (decides_typeRuling total owner ty).congr (by simp)

end Types

theorem decides_containerRuling {outer : DeclId → Except PassError Bool}
    {transformed : DeclId → Prop} {decl : Decl}
    (known : ∀ container, decl.container = some container →
      ∃ around, judge.tree.get? container = some around)
    (above : ∀ container around, decl.container = some container →
      judge.tree.get? container = some around → around.form.isSignature = true →
      Decides (outer container) (transformed container)) :
    Decides (judge.containerRuling outer decl) (judge.InTransformed transformed decl) := by
  unfold containerRuling
  cases inside : decl.container with
  | none => exact .of_no (by simp [InTransformed, inside])
  | some container =>
    obtain ⟨around, found⟩ := known container inside
    simp only [declOf_eq_ok_iff.2 found]
    change Decides (if around.form.isSignature then outer container else pure false) _
    split
    · next signature =>
      have decides := above container around inside found signature
      exact decides.congr (by simp [InTransformed, inside, found, signature])
    · next other => exact .of_no (by simp [InTransformed, inside, found, other])

include total

/-- A ruling is a matter of looking for the reasons in the table. -/
theorem decides_rulingOn {outer : DeclId → Except PassError Bool} {transformed : DeclId → Prop}
    {decl : Decl}
    (known : ∀ child ∈ decl.form.children, ∃ inner, judge.tree.get? child = some inner)
    (around : Decides (judge.containerRuling outer decl) (judge.InTransformed transformed decl))
    (id : DeclId) (placeholder : Bool) :
    Decides (judge.rulingOn outer id decl placeholder)
      (judge.Reason transformed decl (placeholder = true)) := by
  have own : Decides (pure placeholder : Except PassError Bool) (placeholder = true) := .of_pure _
  unfold rulingOn Reason
  cases form : decl.form with
  | cls name typeParams thisReceiver members => exact .of_no not_false
  | ctor typeParams params body =>
    have inTree : ∀ param ∈ params, ∃ inner, judge.tree.get? param = some inner := by
      intro param inside
      exact known param (by simp [form, DeclForm.children, inside])
    exact own.orM (decides_paramRuling total id inTree)
  | function name typeParams receiver params result body =>
    have inTree : ∀ param ∈ params, ∃ inner, judge.tree.get? param = some inner := by
      intro param inside
      exact known param (by simp [form, DeclForm.children, inside])
    exact own.orM ((decides_paramRuling total id inTree).orM (decides_resultRuling total id result))
  | valueParam name ty default => exact own.orM ((decides_typeRuling total id ty).orM around)
  | receiverParam ty => exact own.orM ((decides_typeRuling total id ty).orM around)
  | typeParam name bounds => exact own.orM around

end Judge

end Relabel
