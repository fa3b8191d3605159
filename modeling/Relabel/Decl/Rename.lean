import Relabel.Decl.Basic
import Relabel.Syntax.Rename

namespace Relabel

namespace DeclForm

/-- What a declaration mentions and holds, in written order. -/
def occurrences : DeclForm → List Occurrence
  | .cls _ typeParams thisReceiver members =>
    typeParams.map .decl ++ thisReceiver.toList.map .decl ++ members.map .decl
  | .ctor typeParams params body =>
    typeParams.map .decl ++ params.map .decl ++ Body.occurrences (body.getD [])
  | .function _ typeParams receiver params result body =>
    typeParams.map .decl ++ receiver.toList.map .decl ++ params.map .decl ++
      TypeExpr.occurrencesList result.toList ++ Body.occurrences (body.getD [])
  | .valueParam _ ty default => ty.occurrences ++ Expr.occurrencesOption default
  | .receiverParam ty => ty.occurrences
  | .typeParam _ bounds => TypeExpr.occurrencesList bounds

/-- Renames every mentioned symbol with `f` and every declaration held with `g`. -/
def rename (f : SymbolId → SymbolId) (g : DeclId → DeclId) : DeclForm → DeclForm
  | .cls name typeParams thisReceiver members =>
    .cls name (typeParams.map g) (thisReceiver.map g) (members.map g)
  | .ctor typeParams params body =>
    .ctor (typeParams.map g) (params.map g) (body.map (Body.rename f g))
  | .function name typeParams receiver params result body =>
    .function name (typeParams.map g) (receiver.map g) (params.map g) (result.map (TypeExpr.rename f))
      (body.map (Body.rename f g))
  | .valueParam name ty default => .valueParam name (ty.rename f) (Expr.renameOption f g default)
  | .receiverParam ty => .receiverParam (ty.rename f)
  | .typeParam name bounds => .typeParam name (TypeExpr.renameList f bounds)

theorem decls_of_map_decl (ids : List DeclId) :
    (ids.map Occurrence.decl).filterMap Occurrence.decl? = ids := by
  simp [List.filterMap_map, Occurrence.decl?, Function.comp_def]

/-- The declarations among the occurrences are the children, in the same order. -/
theorem decls_of_occurrences (form : DeclForm) :
    form.occurrences.filterMap Occurrence.decl? = form.children := by
  cases form <;>
    simp only [occurrences, children, List.filterMap_append, decls_of_map_decl, Body.occurrences,
      Body.nested, Stmt.decls_of_occurrencesList, TypeExpr.decls_of_occurrencesList,
      TypeExpr.decls_of_occurrences, Expr.decls_of_occurrencesOption, List.append_nil,
      List.nil_append]

theorem sort_rename (f : SymbolId → SymbolId) (g : DeclId → DeclId) (form : DeclForm) :
    (form.rename f g).sort = form.sort := by
  cases form <;> rfl

theorem occurrences_rename (f : SymbolId → SymbolId) (g : DeclId → DeclId) (form : DeclForm) :
    (form.rename f g).occurrences = form.occurrences.map (Occurrence.rename f g) := by
  have decls (ids : List DeclId) : (ids.map g).map Occurrence.decl =
      (ids.map Occurrence.decl).map (Occurrence.rename f g) := by
    simp [Occurrence.rename, Function.comp_def]
  have bodies (body : Option Body) : Body.occurrences ((body.map (Body.rename f g)).getD []) =
      (Body.occurrences (body.getD [])).map (Occurrence.rename f g) := by
    cases body with
    | none => rfl
    | some body => exact Stmt.occurrences_renameList f g body
  cases form <;>
    simp only [rename, occurrences, List.map_append, Option.toList_map, decls, bodies,
      ← TypeExpr.renameList_eq_map, TypeExpr.occurrences_rename f g,
      TypeExpr.occurrencesList_renameList f g, Expr.occurrences_renameOption]

theorem children_rename (f : SymbolId → SymbolId) (g : DeclId → DeclId) (form : DeclForm) :
    (form.rename f g).children = form.children.map g := by
  rw [← decls_of_occurrences, ← decls_of_occurrences, occurrences_rename, List.filterMap_map,
    List.map_filterMap]
  congr 1
  funext occurrence
  cases occurrence <;> rfl

end DeclForm

/-- The copy of a declaration: symbols renamed with `f`, declarations with `g`, contained in nothing
yet. -/
def Decl.rename (f : SymbolId → SymbolId) (g : DeclId → DeclId) (decl : Decl) : Decl :=
  { decl with symbol := f decl.symbol, form := decl.form.rename f g, container := none }

end Relabel
