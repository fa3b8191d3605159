import Relabel.Proofs.Traversal

namespace Relabel

section Twice

variable (f f' : SymbolId → SymbolId) (g g' : DeclId → DeclId)

theorem TypeExpr.Head.rename_rename (head : Head) :
    (head.rename f).rename f' = head.rename (f' ∘ f) := by
  cases head <;> rfl

mutual

theorem TypeExpr.rename_rename : (ty : TypeExpr) →
    (ty.rename f).rename f' = ty.rename (f' ∘ f)
  | ⟨head, args, _, _⟩ => by
    simp only [rename, Head.rename_rename f f' head, TypeExpr.renameList_renameList args]

theorem TypeExpr.renameList_renameList : (tys : List TypeExpr) →
    renameList f' (renameList f tys) = renameList (f' ∘ f) tys
  | [] => rfl
  | ty :: tys => by
    simp only [renameList, TypeExpr.rename_rename ty, TypeExpr.renameList_renameList tys]

end

mutual

theorem Expr.rename_rename : (expr : Expr) →
    (expr.rename f g).rename f' g' = expr.rename (f' ∘ f) (g' ∘ g)
  | .literal _ => rfl
  | .read _ => rfl
  | .call callee typeArgs receiver args => by
    simp only [Expr.rename, TypeExpr.renameList_renameList, Expr.renameOption_renameOption receiver,
      Expr.renameList_renameList args, Function.comp_apply]
  | .construct ctor typeArgs args => by
    simp only [Expr.rename, TypeExpr.renameList_renameList, Expr.renameList_renameList args,
      Function.comp_apply]
  | .lambda _ => rfl
  | .block stmts => by
    simp only [Expr.rename, Stmt.renameList_renameList stmts]

theorem Expr.renameOption_renameOption : (expr : Option Expr) →
    Expr.renameOption f' g' (Expr.renameOption f g expr) =
      Expr.renameOption (f' ∘ f) (g' ∘ g) expr
  | none => rfl
  | some expr => by
    simp only [Expr.renameOption, Expr.rename_rename expr]

theorem Expr.renameList_renameList : (exprs : List Expr) →
    Expr.renameList f' g' (Expr.renameList f g exprs) = Expr.renameList (f' ∘ f) (g' ∘ g) exprs
  | [] => rfl
  | expr :: exprs => by
    simp only [Expr.renameList, Expr.rename_rename expr, Expr.renameList_renameList exprs]

theorem Stmt.rename_rename : (stmt : Stmt) →
    (stmt.rename f g).rename f' g' = stmt.rename (f' ∘ f) (g' ∘ g)
  | .decl _ => rfl
  | .expr value => by
    simp only [Stmt.rename, Expr.rename_rename value]
  | .ret value => by
    simp only [Stmt.rename, Expr.renameOption_renameOption value]

theorem Stmt.renameList_renameList : (stmts : List Stmt) →
    Stmt.renameList f' g' (Stmt.renameList f g stmts) = Stmt.renameList (f' ∘ f) (g' ∘ g) stmts
  | [] => rfl
  | stmt :: stmts => by
    simp only [Stmt.renameList, Stmt.rename_rename stmt, Stmt.renameList_renameList stmts]

end

/-- To rename twice is to rename once, by the two renamings one after the other. -/
theorem DeclForm.rename_rename (form : DeclForm) :
    (form.rename f g).rename f' g' = form.rename (f' ∘ f) (g' ∘ g) := by
  have type : TypeExpr.rename f' ∘ TypeExpr.rename f = TypeExpr.rename (f' ∘ f) :=
    funext fun ty => TypeExpr.rename_rename f f' ty
  have body : Body.rename f' g' ∘ Body.rename f g = Body.rename (f' ∘ f) (g' ∘ g) :=
    funext fun stmts => Stmt.renameList_renameList f f' g g' stmts
  cases form with
  | cls name typeParams thisReceiver members => simp [rename]
  | ctor typeParams params stmts => simp [rename, body]
  | function name typeParams receiver params result stmts => simp [rename, type, body]
  | valueParam name ty default =>
    simp [rename, TypeExpr.rename_rename, Expr.renameOption_renameOption]
  | receiverParam ty => simp [rename, TypeExpr.rename_rename]
  | typeParam name bounds => simp [rename, TypeExpr.renameList_renameList]

end Twice

section Identity

theorem TypeExpr.Head.rename_id (head : Head) : head.rename id = head := by
  cases head <;> rfl

mutual

theorem TypeExpr.rename_id : (ty : TypeExpr) → ty.rename id = ty
  | ⟨head, args, _, _⟩ => by
    simp only [rename, Head.rename_id head, TypeExpr.renameList_id args]

theorem TypeExpr.renameList_id : (tys : List TypeExpr) → renameList id tys = tys
  | [] => rfl
  | ty :: tys => by
    simp only [renameList, TypeExpr.rename_id ty, TypeExpr.renameList_id tys]

end

mutual

theorem Expr.rename_id : (expr : Expr) → expr.rename id id = expr
  | .literal _ => rfl
  | .read _ => rfl
  | .call _ typeArgs receiver args => by
    simp only [Expr.rename, TypeExpr.renameList_id typeArgs, Expr.renameOption_id receiver,
      Expr.renameList_id args, id_eq]
  | .construct _ typeArgs args => by
    simp only [Expr.rename, TypeExpr.renameList_id typeArgs, Expr.renameList_id args, id_eq]
  | .lambda _ => rfl
  | .block stmts => by
    simp only [Expr.rename, Stmt.renameList_id stmts]

theorem Expr.renameOption_id : (expr : Option Expr) → Expr.renameOption id id expr = expr
  | none => rfl
  | some expr => by
    simp only [Expr.renameOption, Expr.rename_id expr]

theorem Expr.renameList_id : (exprs : List Expr) → Expr.renameList id id exprs = exprs
  | [] => rfl
  | expr :: exprs => by
    simp only [Expr.renameList, Expr.rename_id expr, Expr.renameList_id exprs]

theorem Stmt.rename_id : (stmt : Stmt) → stmt.rename id id = stmt
  | .decl _ => rfl
  | .expr value => by
    simp only [Stmt.rename, Expr.rename_id value]
  | .ret value => by
    simp only [Stmt.rename, Expr.renameOption_id value]

theorem Stmt.renameList_id : (stmts : List Stmt) → Stmt.renameList id id stmts = stmts
  | [] => rfl
  | stmt :: stmts => by
    simp only [Stmt.renameList, Stmt.rename_id stmt, Stmt.renameList_id stmts]

end

theorem DeclForm.rename_id (form : DeclForm) : form.rename id id = form := by
  have type : TypeExpr.rename id = id := funext TypeExpr.rename_id
  have body : Body.rename id id = id := funext Stmt.renameList_id
  cases form with
  | cls name typeParams thisReceiver members => simp [rename]
  | ctor typeParams params stmts => simp [rename, body]
  | function name typeParams receiver params result stmts => simp [rename, type, body]
  | valueParam name ty default => simp [rename, TypeExpr.rename_id, Expr.renameOption_id]
  | receiverParam ty => simp [rename, TypeExpr.rename_id]
  | typeParam name bounds => simp [rename, TypeExpr.renameList_id]

end Identity

namespace DeclForm

variable {f f' : SymbolId → SymbolId} {g g' : DeclId → DeclId}

/-- Renamings that agree on what occurs in a declaration rename it alike: a traversal with either of
them finds the same images and puts them back in the same places. -/
theorem rename_congr {form : DeclForm}
    (agree : ∀ occurrence ∈ form.occurrences, occurrence.rename f g = occurrence.rename f' g') :
    form.rename f g = form.rename f' g' := by
  let traversed : Pass Unit DeclForm :=
    form.traverse (fun id => pure (f id)) fun id => pure (g id)
  have visits : Occurrence.visit (fun id => pure (f id)) (fun id => pure (g id)) =
      fun occurrence => (pure (occurrence.rename f g) : Pass Unit Occurrence) := by
    funext occurrence
    cases occurrence <;> rfl
  have mirrors : Pass.Mirrors (Refilled .form form) traversed
      (pure (form.occurrences.map (Occurrence.rename f g))) := by
    rw [← List.mapM_pure, ← visits]
    exact form.traverses
  have ends := mirrors ()
  generalize traversed.run () = ran at ends
  cases ends with
  | ok related =>
    obtain ⟨-, refilled⟩ := related
    have first := refilled.renamed f g rfl
    have second := refilled.renamed f' g' (List.map_congr_left agree)
    exact first.symm.trans second

/-- A renaming that leaves what occurs in a declaration leaves the declaration. -/
theorem rename_eq_self {form : DeclForm}
    (fixed : ∀ occurrence ∈ form.occurrences, occurrence.rename f g = occurrence) :
    form.rename f g = form := by
  have same : form.rename f g = form.rename id id := by
    apply rename_congr
    intro occurrence inside
    rw [fixed occurrence inside]
    cases occurrence <;> rfl
  rw [same, rename_id]

end DeclForm

end Relabel
