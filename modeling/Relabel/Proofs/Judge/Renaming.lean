import Relabel.Proofs.Copy.Layout
import Relabel.Proofs.Judge.Growth

namespace Relabel

namespace TypeExpr

theorem carries_rename (f : SymbolId → SymbolId) (ty : TypeExpr) (marker : Name) :
    (ty.rename f).carries marker = ty.carries marker := by
  cases ty
  rfl

theorem args_rename (f : SymbolId → SymbolId) (ty : TypeExpr) :
    (ty.rename f).args = ty.args.map (rename f) := by
  cases ty
  exact renameList_eq_map f _

end TypeExpr

theorem anyM_ok {ε α : Type} (test : α → Bool) (list : List α) :
    list.anyM (fun a => (.ok (test a) : Except ε Bool)) = .ok (list.any test) := by
  induction list with
  | nil => rfl
  | cons a list ih =>
    rw [List.anyM, List.any_cons]
    cases test a with
    | true => rfl
    | false => exact ih

theorem anyM_map {ε α β : Type} (test : β → Except ε Bool) (f : α → β) (list : List α) :
    (list.map f).anyM test = list.anyM fun a => test (f a) := by
  induction list with
  | nil => rfl
  | cons a list ih => rw [List.map_cons, List.anyM, List.anyM, ih]

/-- One more reason for what is so already changes nothing. -/
theorem orM_again {ε : Type} {first answer : Bool} {rest : Except ε Bool}
    (done : (pure first <||> rest) = Except.ok answer) (other : Bool) :
    (pure (first || (answer && other)) <||> rest) = Except.ok answer := by
  cases first with
  | true => exact done
  | false =>
    cases answer with
    | false => exact done
    | true =>
      cases other with
      | true => rfl
      | false => exact done

namespace TypePredicate

theorem reaches_marked (marker : Name) (ty : TypeExpr) :
    (marked marker).reaches ty = .ok ((ty :: ty.args).any (·.carries marker)) :=
  anyM_ok _ _

/-- A predicate that does not see how type parameters are called reaches the same types by any names.
-/
theorem reaches_rename {predicate : TypePredicate} {f : SymbolId → SymbolId}
    (blind : ∀ ty : TypeExpr, predicate (ty.rename f) = predicate ty) (ty : TypeExpr) :
    predicate.reaches (ty.rename f) = predicate.reaches ty := by
  rw [reaches, reaches, TypeExpr.args_rename, ← List.map_cons, anyM_map]
  simp only [blind]

/-- Renaming type parameters leaves all annotations where they are. -/
theorem reaches_marked_rename (marker : Name) (f : SymbolId → SymbolId) (ty : TypeExpr) :
    (marked marker).reaches (ty.rename f) = (marked marker).reaches ty := by
  refine reaches_rename (fun ty => ?_) ty
  rw [marked, marked, ty.carries_rename]

end TypePredicate

/-- The container of a copied declaration is the copy of its container. -/
theorem DeclTree.CopiedTo.container {tree : DeclTree} {copy : Copy} {place : DeclId → DeclId}
    (copiedTo : tree.CopiedTo copy place) (nested : tree.Nested) (nestedCopy : copy.tree.Nested)
    {id : DeclId} {decl image : Decl} (reached : tree.Reachable id)
    (found : tree.get? id = some decl) (foundImage : copy.tree.get? (place id) = some image) :
    image.container = decl.container.map place := by
  rcases nested.root_or_listed reached found with
    ⟨listed, outside⟩ | ⟨parent, around, reachedParent, foundParent, listed, within⟩
  · rw [outside, copiedTo.container_of_root nestedCopy listed foundImage]
    rfl
  · rw [within, copiedTo.container_of_child nestedCopy reachedParent foundParent listed foundImage]
    rfl

namespace Judge

/-- The ruling on the type of a value parameter. Other declarations have none here. -/
def valueRuling (judge : Judge) (owner : DeclId) : DeclForm → Except PassError Bool
  | .valueParam _ ty _ => judge.typeRuling owner ty
  | _ => pure false

theorem paramRuling_cons {judge : Judge} {param : DeclId} {decl : Decl}
    (found : judge.tree.get? param = some decl) (owner : DeclId) (params : List DeclId) :
    judge.paramRuling owner (param :: params) =
      (judge.valueRuling owner decl.form <||> judge.paramRuling owner params) := by
  rw [paramRuling, List.anyM, declOf_eq_ok_iff.2 found]
  obtain ⟨symbol, form⟩ := decl
  cases form with
  | valueParam name ty default =>
    change (judge.typeRuling owner ty >>= _) = (judge.typeRuling owner ty <||> _)
    cases judge.typeRuling owner ty with
    | error error => rfl
    | ok verdict => cases verdict <;> rfl
  | _ => rfl

section Copied

variable {tree : DeclTree} {copy : Copy} {place : DeclId → DeclId}
  (copiedTo : tree.CopiedTo copy place) {marker : Name}

theorem typeRuling_rename (f : SymbolId → SymbolId) (there id : DeclId) (ty : TypeExpr) :
    (Judge.mk copy.tree (.marked marker)).typeRuling there (ty.rename f) =
      (Judge.mk tree (.marked marker)).typeRuling id ty := by
  rw [typeRuling, typeRuling, TypePredicate.reaches_marked_rename, TypePredicate.reaches_marked]
  rfl

theorem resultRuling_rename (f : SymbolId → SymbolId) (there id : DeclId)
    (result : Option TypeExpr) :
    (Judge.mk copy.tree (.marked marker)).resultRuling there (result.map (TypeExpr.rename f)) =
      (Judge.mk tree (.marked marker)).resultRuling id result := by
  cases result with
  | none => rfl
  | some ty => exact typeRuling_rename f there id ty

include copiedTo

theorem paramRuling_map (there id : DeclId) {params : List DeclId}
    (reached : ∀ param ∈ params, tree.Reachable param) :
    (Judge.mk copy.tree (.marked marker)).paramRuling there (params.map place) =
      (Judge.mk tree (.marked marker)).paramRuling id params := by
  induction params with
  | nil => rfl
  | cons param params ih =>
    have rest := ih fun other inside => reached other (List.mem_cons_of_mem param inside)
    obtain ⟨decl, image, found, foundImage, copied⟩ :=
      copiedTo.decls param (reached param List.mem_cons_self)
    have here : (Judge.mk copy.tree (.marked marker)).valueRuling there image.form =
        (Judge.mk tree (.marked marker)).valueRuling id decl.form := by
      rw [copied.form]
      cases decl.form with
      | valueParam name ty default => exact typeRuling_rename _ there id ty
      | _ => rfl
    rw [List.map_cons, paramRuling_cons foundImage, paramRuling_cons found, here, rest]

variable (nested : tree.Nested) (nestedCopy : copy.tree.Nested)

include nested nestedCopy

theorem containerRuling_image {outer other : DeclId → Except PassError Bool}
    (agree : ∀ container around, tree.Reachable container → tree.get? container = some around →
      around.form.isSignature = true → other (place container) = outer container)
    {id : DeclId} {decl image : Decl} (reached : tree.Reachable id)
    (found : tree.get? id = some decl) (foundImage : copy.tree.get? (place id) = some image) :
    (Judge.mk copy.tree (.marked marker)).containerRuling other image =
      (Judge.mk tree (.marked marker)).containerRuling outer decl := by
  have moved := copiedTo.container nested nestedCopy reached found foundImage
  unfold containerRuling
  rw [moved]
  cases inside : decl.container with
  | none => rfl
  | some container =>
    have outside := nested.reachable_container reached found inside
    obtain ⟨around, imageAround, foundAround, foundThere, copied⟩ :=
      copiedTo.decls container outside
    have isSignature : imageAround.form.isSignature = around.form.isSignature := by
      rw [copied.form]
      cases around.form <;> rfl
    have here : (Judge.mk copy.tree (.marked marker)).declOf (place container) = .ok imageAround :=
      declOf_eq_ok_iff.2 foundThere
    have source : (Judge.mk tree (.marked marker)).declOf container = .ok around :=
      declOf_eq_ok_iff.2 foundAround
    simp only [Option.map_some, here, source]
    change (if imageAround.form.isSignature then other (place container) else pure false) =
      if around.form.isSignature then outer container else pure false
    rw [isSignature]
    split
    · next signature => exact agree container around outside foundAround signature
    · rfl

/-- A declaration that is found transformed may get a placeholder for that. Then it is found
transformed again, and what is not transformed is not so afterwards either. -/
theorem rulingOn_image {outer other : DeclId → Except PassError Bool}
    (agree : ∀ container around, tree.Reachable container → tree.get? container = some around →
      around.form.isSignature = true → other (place container) = outer container)
    {id : DeclId} {decl image : Decl} (reached : tree.Reachable id)
    (found : tree.get? id = some decl) (foundImage : copy.tree.get? (place id) = some image)
    (copied : decl.CopiedAs image copy.substitution place) {placeholder transformed : Bool}
    (ruled : (Judge.mk tree (.marked marker)).rulingOn outer id decl placeholder = .ok transformed)
    (replaceable : Bool) :
    (Judge.mk copy.tree (.marked marker)).rulingOn other (place id) image
      (placeholder || (transformed && replaceable)) = .ok transformed := by
  have around : (Judge.mk copy.tree (.marked marker)).containerRuling other image =
      (Judge.mk tree (.marked marker)).containerRuling outer decl :=
    containerRuling_image copiedTo nested nestedCopy agree reached found foundImage
  have ofParams {params : List DeclId}
      (listed : ∀ param ∈ params, param ∈ decl.form.children) :
      (Judge.mk copy.tree (.marked marker)).paramRuling (place id) (params.map place) =
        (Judge.mk tree (.marked marker)).paramRuling id params :=
    paramRuling_map copiedTo (place id) id fun param inside =>
      reached.child found (listed param inside)
  have ofType (ty : TypeExpr) :
      (Judge.mk copy.tree (.marked marker)).typeRuling (place id)
          (ty.rename copy.substitution.apply) =
        (Judge.mk tree (.marked marker)).typeRuling id ty :=
    typeRuling_rename _ (place id) id ty
  unfold rulingOn at ruled ⊢
  rw [copied.form]
  cases form : decl.form with
  | cls name typeParams thisReceiver members =>
    simp only [form] at ruled
    exact ruled
  | ctor typeParams params body =>
    simp only [form] at ruled
    simp only [DeclForm.rename]
    rw [ofParams fun param inside => by simp [form, DeclForm.children, inside]]
    exact orM_again ruled replaceable
  | function name typeParams receiver params result body =>
    simp only [form] at ruled
    simp only [DeclForm.rename]
    rw [ofParams fun param inside => by simp [form, DeclForm.children, inside],
      resultRuling_rename _ (place id) id result]
    exact orM_again ruled replaceable
  | valueParam name ty default =>
    simp only [form] at ruled
    simp only [DeclForm.rename]
    rw [ofType, around]
    exact orM_again ruled replaceable
  | receiverParam ty =>
    simp only [form] at ruled
    simp only [DeclForm.rename]
    rw [ofType, around]
    exact orM_again ruled replaceable
  | typeParam name bounds =>
    simp only [form] at ruled
    simp only [DeclForm.rename]
    rw [around]
    exact orM_again ruled replaceable

end Copied

end Judge

end Relabel
