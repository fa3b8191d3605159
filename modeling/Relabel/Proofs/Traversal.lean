import Relabel.Decl.Rename
import Relabel.Decl.Traverse
import Relabel.Proofs.Simulation

namespace Relabel

variable {σ α β : Type}

/-- What a traversal does at an occurrence. -/
def Occurrence.visit (f : SymbolId → Pass σ SymbolId) (g : DeclId → Pass σ DeclId) :
    Occurrence → Pass σ Occurrence
  | .decl id => .decl <$> g id
  | .symbol id => .symbol <$> f id

/-- A kind of syntax: what occurs in it, and how to rename that. -/
structure Shape (α : Type) where
  occurrences : α → List Occurrence
  rename : (SymbolId → SymbolId) → (DeclId → DeclId) → α → α

namespace Shape

def symbol : Shape SymbolId := ⟨fun id => [.symbol id], fun f _ => f⟩
def decl : Shape DeclId := ⟨fun id => [.decl id], fun _ g => g⟩
def head : Shape TypeExpr.Head := ⟨fun head => head.params.map .symbol, fun f _ => .rename f⟩
def type : Shape TypeExpr := ⟨TypeExpr.occurrences, fun f _ => TypeExpr.rename f⟩
def types : Shape (List TypeExpr) := ⟨TypeExpr.occurrencesList, fun f _ => TypeExpr.renameList f⟩
def expr : Shape Expr := ⟨Expr.occurrences, Expr.rename⟩
def optionalExpr : Shape (Option Expr) := ⟨Expr.occurrencesOption, Expr.renameOption⟩
def exprs : Shape (List Expr) := ⟨Expr.occurrencesList, Expr.renameList⟩
def stmt : Shape Stmt := ⟨Stmt.occurrences, Stmt.rename⟩
def stmts : Shape (List Stmt) := ⟨Stmt.occurrencesList, Stmt.renameList⟩
def form : Shape DeclForm := ⟨DeclForm.occurrences, DeclForm.rename⟩

def list (shape : Shape α) : Shape (List α) :=
  ⟨fun xs => xs.flatMap shape.occurrences, fun f g xs => xs.map (shape.rename f g)⟩

def option (shape : Shape α) : Shape (Option α) :=
  ⟨fun x => x.toList.flatMap shape.occurrences, fun f g x => x.map (shape.rename f g)⟩

def pair (left : Shape α) (right : Shape β) : Shape (α × β) :=
  ⟨fun p => left.occurrences p.1 ++ right.occurrences p.2,
    fun f g p => (left.rename f g p.1, right.rename f g p.2)⟩

end Shape

/-- `after` is `before` with its occurrences replaced by `images`, in order. -/
structure Refilled (shape : Shape α) (before after : α) (images : List Occurrence) : Prop where
  listed : shape.occurrences after = images
  length : images.length = (shape.occurrences before).length
  renamed : ∀ f g, images = (shape.occurrences before).map (Occurrence.rename f g) →
    after = shape.rename f g before

namespace Refilled

/-- Two parts side by side. -/
theorem pair {left : Shape α} {right : Shape β} {x x' : α} {y y' : β}
    {first second : List Occurrence} (ofLeft : Refilled left x x' first)
    (ofRight : Refilled right y y' second) :
    Refilled (left.pair right) (x, y) (x', y') (first ++ second) where
  listed := by
    change left.occurrences x' ++ right.occurrences y' = _
    rw [ofLeft.listed, ofRight.listed]
  length := by
    change _ = (left.occurrences x ++ right.occurrences y).length
    rw [List.length_append, List.length_append, ofLeft.length, ofRight.length]
  renamed := by
    intro f g same
    change first ++ second = (left.occurrences x ++ right.occurrences y).map _ at same
    rw [List.map_append] at same
    have parts := List.append_inj same (by rw [ofLeft.length, List.length_map])
    change (x', y') = (left.rename f g x, right.rename f g y)
    rw [ofLeft.renamed f g parts.1, ofRight.renamed f g parts.2]

/-- The same parts under a constructor. -/
theorem under {inner : Shape α} {outer : Shape β} {x x' : α} {images : List Occurrence}
    (part : Refilled inner x x' images) (make : α → β)
    (listed : ∀ x, outer.occurrences (make x) = inner.occurrences x)
    (renamed : ∀ f g x, outer.rename f g (make x) = make (inner.rename f g x)) :
    Refilled outer (make x) (make x') images where
  listed := by rw [listed, part.listed]
  length := by rw [part.length, listed]
  renamed := by
    intro f g same
    rw [listed] at same
    rw [renamed, part.renamed f g same]

theorem leaf {shape : Shape α} {x : α} (none : shape.occurrences x = [])
    (fixed : ∀ f g, shape.rename f g x = x) : Refilled shape x x [] where
  listed := none
  length := by rw [none]
  renamed := fun f g _ => (fixed f g).symm

end Refilled

/-- A traversal visits the occurrences in order and puts back what the visits return. -/
def Traverses (shape : Shape α) (f : SymbolId → Pass σ SymbolId) (g : DeclId → Pass σ DeclId)
    (traverse : α → Pass σ α) (x : α) : Prop :=
  Pass.Mirrors (Refilled shape x) (traverse x) ((shape.occurrences x).mapM (Occurrence.visit f g))

namespace Traverses

variable {f : SymbolId → Pass σ SymbolId} {g : DeclId → Pass σ DeclId}

theorem symbol (id : SymbolId) : Traverses .symbol f g f id := by
  intro s
  change Pass.Alike _ _ ((f id).run s) ((do
    let image ← Occurrence.symbol <$> f id
    let rest ← [].mapM (Occurrence.visit f g)
    pure (image :: rest)).run s)
  rw [List.mapM_nil, map_eq_pure_bind, bind_assoc, EStateM.run_bind]
  cases (f id).run s with
  | error error t => exact .error rfl
  | ok new t =>
    refine .ok ⟨rfl, rfl, rfl, ?_⟩
    intro f g same
    exact Occurrence.symbol.inj (List.cons.inj same).1

theorem decl (id : DeclId) : Traverses .decl f g g id := by
  intro s
  change Pass.Alike _ _ ((g id).run s) ((do
    let image ← Occurrence.decl <$> g id
    let rest ← [].mapM (Occurrence.visit f g)
    pure (image :: rest)).run s)
  rw [List.mapM_nil, map_eq_pure_bind, bind_assoc, EStateM.run_bind]
  cases (g id).run s with
  | error error t => exact .error rfl
  | ok new t =>
    refine .ok ⟨rfl, rfl, rfl, ?_⟩
    intro f g same
    exact Occurrence.decl.inj (List.cons.inj same).1

theorem leaf {shape : Shape α} {traverse : α → Pass σ α} {x : α} (none : shape.occurrences x = [])
    (fixed : ∀ f g, shape.rename f g x = x) (stays : traverse x = pure x) :
    Traverses shape f g traverse x := by
  unfold Traverses
  rw [stays, none, List.mapM_nil]
  exact .pure (.leaf none fixed)

/-- Two parts, one after the other. -/
theorem pair {left : Shape α} {right : Shape β} {p : α → Pass σ α} {q : β → Pass σ β} {x : α}
    {y : β} (ofLeft : Traverses left f g p x) (ofRight : Traverses right f g q y) :
    Traverses (left.pair right) f g (fun z => do pure (← p z.1, ← q z.2)) (x, y) := by
  unfold Traverses
  change Pass.Mirrors _ _ ((left.occurrences x ++ right.occurrences y).mapM _)
  rw [List.mapM_append]
  refine ofLeft.bind fun x' first leftRefilled => ?_
  refine ofRight.bind fun y' second rightRefilled => ?_
  exact .pure (leftRefilled.pair rightRefilled)

/-- The same parts under a constructor. -/
theorem under {inner : Shape α} {outer : Shape β} {p : α → Pass σ α} {q : β → Pass σ β} {x : α}
    (part : Traverses inner f g p x) (make : α → β)
    (listed : ∀ x, outer.occurrences (make x) = inner.occurrences x)
    (renamed : ∀ f g x, outer.rename f g (make x) = make (inner.rename f g x))
    (same : q (make x) = make <$> p x) : Traverses outer f g q (make x) := by
  unfold Traverses
  rw [same, listed, ← id_map ((inner.occurrences x).mapM _)]
  exact part.map fun x' images refilled => refilled.under make listed renamed

theorem list {shape : Shape α} {p : α → Pass σ α} {xs : List α}
    (each : ∀ x ∈ xs, Traverses shape f g p x) : Traverses shape.list f g (·.mapM p) xs := by
  induction xs with
  | nil => exact leaf rfl (fun _ _ => rfl) rfl
  | cons x xs ih =>
    have first := each x (by simp)
    have rest := ih fun y inside => each y (by simp [inside])
    exact (first.pair rest).under (fun z : α × List α => z.1 :: z.2) (fun _ => rfl)
      (fun _ _ _ => rfl) (by simp)

theorem option {shape : Shape α} {p : α → Pass σ α} {x : Option α}
    (each : ∀ y ∈ x, Traverses shape f g p y) : Traverses shape.option f g (·.mapM p) x := by
  cases x with
  | none => exact leaf rfl (fun _ _ => rfl) rfl
  | some y =>
    exact (each y rfl).under some (fun _ => List.append_nil _) (fun _ _ _ => rfl) rfl

end Traverses

variable {f : SymbolId → Pass σ SymbolId} {g : DeclId → Pass σ DeclId}

theorem TypeExpr.Head.traverses (head : Head) : Traverses .head f g (Head.traverse f) head := by
  cases head with
  | param symbol =>
    exact (Traverses.symbol symbol).under Head.param (fun _ => rfl) (fun _ _ _ => rfl)
      (map_eq_pure_bind ..).symm
  | named name => exact .leaf rfl (fun _ _ => rfl) rfl
  | function => exact .leaf rfl (fun _ _ => rfl) rfl

mutual

theorem TypeExpr.traverses : (ty : TypeExpr) → Traverses .type f g (TypeExpr.traverse f) ty
  | ⟨head, args, annotations, nullable⟩ =>
    ((Head.traverses head).pair (TypeExpr.traversesList args)).under
      (fun parts => TypeExpr.mk parts.1 parts.2 annotations nullable)
      (fun _ => by
        simp [Shape.type, Shape.pair, Shape.head, Shape.types, TypeExpr.occurrences,
          TypeExpr.occurrencesList, TypeExpr.params])
      (fun _ _ _ => rfl) (by simp [TypeExpr.traverse])

theorem TypeExpr.traversesList : (tys : List TypeExpr) →
    Traverses .types f g (TypeExpr.traverseList f) tys
  | [] => .leaf rfl (fun _ _ => rfl) rfl
  | ty :: tys =>
    ((TypeExpr.traverses ty).pair (TypeExpr.traversesList tys)).under
      (fun parts => parts.1 :: parts.2)
      (fun _ => by
        simp [Shape.type, Shape.pair, Shape.types, TypeExpr.occurrences, TypeExpr.occurrencesList,
          TypeExpr.paramsList])
      (fun _ _ _ => rfl) (by simp [TypeExpr.traverseList])

end

mutual

theorem Expr.traverses : (expr : Expr) → Traverses .expr f g (Expr.traverse f g) expr
  | .literal _ => .leaf rfl (fun _ _ => rfl) rfl
  | .read symbol =>
    (Traverses.symbol symbol).under Expr.read (fun _ => rfl) (fun _ _ _ => rfl)
      (map_eq_pure_bind ..).symm
  | .call callee typeArgs receiver args =>
    ((Traverses.symbol callee).pair ((TypeExpr.traversesList typeArgs).pair
      ((Expr.traversesOption receiver).pair (Expr.traversesList args)))).under
      (fun parts => Expr.call parts.1 parts.2.1 parts.2.2.1 parts.2.2.2)
      (fun _ => by
        simp [Shape.expr, Shape.pair, Shape.symbol, Shape.types, Shape.optionalExpr, Shape.exprs,
          Expr.occurrences])
      (fun _ _ _ => rfl) (by simp [Expr.traverse])
  | .construct ctor typeArgs args =>
    ((Traverses.symbol ctor).pair ((TypeExpr.traversesList typeArgs).pair
      (Expr.traversesList args))).under
      (fun parts => Expr.construct parts.1 parts.2.1 parts.2.2)
      (fun _ => rfl) (fun _ _ _ => rfl) (by simp [Expr.traverse])
  | .lambda decl =>
    (Traverses.decl decl).under Expr.lambda (fun _ => rfl) (fun _ _ _ => rfl)
      (map_eq_pure_bind ..).symm
  | .block stmts =>
    (Stmt.traversesList stmts).under Expr.block (fun _ => rfl) (fun _ _ _ => rfl)
      (map_eq_pure_bind ..).symm

theorem Expr.traversesOption : (expr : Option Expr) →
    Traverses .optionalExpr f g (Expr.traverseOption f g) expr
  | none => .leaf rfl (fun _ _ => rfl) rfl
  | some expr =>
    (Expr.traverses expr).under some (fun _ => rfl) (fun _ _ _ => rfl) (map_eq_pure_bind ..).symm

theorem Expr.traversesList : (exprs : List Expr) →
    Traverses .exprs f g (Expr.traverseList f g) exprs
  | [] => .leaf rfl (fun _ _ => rfl) rfl
  | expr :: exprs =>
    ((Expr.traverses expr).pair (Expr.traversesList exprs)).under (fun parts => parts.1 :: parts.2)
      (fun _ => rfl) (fun _ _ _ => rfl) (by simp [Expr.traverseList])

theorem Stmt.traverses : (stmt : Stmt) → Traverses .stmt f g (Stmt.traverse f g) stmt
  | .decl id =>
    (Traverses.decl id).under Stmt.decl (fun _ => rfl) (fun _ _ _ => rfl)
      (map_eq_pure_bind ..).symm
  | .expr value =>
    (Expr.traverses value).under Stmt.expr (fun _ => rfl) (fun _ _ _ => rfl)
      (map_eq_pure_bind ..).symm
  | .ret value =>
    (Expr.traversesOption value).under Stmt.ret (fun _ => rfl) (fun _ _ _ => rfl)
      (map_eq_pure_bind ..).symm

theorem Stmt.traversesList : (stmts : List Stmt) →
    Traverses .stmts f g (Stmt.traverseList f g) stmts
  | [] => .leaf rfl (fun _ _ => rfl) rfl
  | stmt :: stmts =>
    ((Stmt.traverses stmt).pair (Stmt.traversesList stmts)).under (fun parts => parts.1 :: parts.2)
      (fun _ => rfl) (fun _ _ _ => rfl) (by simp [Stmt.traverseList])

end

namespace DeclForm

private theorem traversesDecls (ids : List DeclId) :
    Traverses Shape.decl.list f g (·.mapM g) ids :=
  .list fun id _ => .decl id

private theorem traversesOptionalDecl (id : Option DeclId) :
    Traverses Shape.decl.option f g (·.mapM g) id :=
  .option fun id _ => .decl id

private theorem traversesBody (body : Option Body) :
    Traverses Shape.stmts.option f g (·.mapM (Body.traverse f g)) body :=
  .option fun stmts _ => Stmt.traversesList stmts

private theorem map_decl_eq (ids : List DeclId) :
    ids.map Occurrence.decl = Shape.decl.list.occurrences ids :=
  List.map_eq_flatMap

private theorem optionalBody_eq (body : Option Body) :
    Body.occurrences (body.getD []) = Shape.stmts.option.occurrences body := by
  cases body with
  | none => rfl
  | some stmts => exact (List.append_nil _).symm

private theorem optionalType_eq (ty : Option TypeExpr) :
    TypeExpr.occurrencesList ty.toList = Shape.type.option.occurrences ty := by
  cases ty with
  | none => rfl
  | some ty =>
    change List.map _ (ty.params ++ []) = ty.params.map _ ++ []
    rw [List.append_nil, List.append_nil]

/-- What a declaration declares is rebuilt from the images of what it mentions and holds. -/
theorem traverses (form : DeclForm) : Traverses .form f g (DeclForm.traverse f g) form := by
  cases form with
  | cls name typeParams thisReceiver members =>
    exact ((traversesDecls typeParams).pair ((traversesOptionalDecl thisReceiver).pair
      (traversesDecls members))).under
      (fun parts => DeclForm.cls name parts.1 parts.2.1 parts.2.2)
      (fun parts => by
        change parts.1.map Occurrence.decl ++ parts.2.1.toList.map _ ++ parts.2.2.map _ = _
        rw [map_decl_eq, map_decl_eq, map_decl_eq, List.append_assoc]
        rfl) (fun _ _ _ => rfl) (by simp [DeclForm.traverse])
  | ctor typeParams params body =>
    exact ((traversesDecls typeParams).pair ((traversesDecls params).pair
      (traversesBody body))).under
      (fun parts => DeclForm.ctor parts.1 parts.2.1 parts.2.2)
      (fun parts => by
        change parts.1.map Occurrence.decl ++ parts.2.1.map _ ++ Body.occurrences _ = _
        rw [map_decl_eq, map_decl_eq, optionalBody_eq, List.append_assoc]
        rfl) (fun _ _ _ => rfl) (by simp [DeclForm.traverse])
  | function name typeParams receiver params result body =>
    have ofResult : Traverses Shape.type.option f g (·.mapM (TypeExpr.traverse f)) result :=
      .option fun ty _ => TypeExpr.traverses ty
    exact ((traversesDecls typeParams).pair ((traversesOptionalDecl receiver).pair
      ((traversesDecls params).pair (ofResult.pair (traversesBody body))))).under
      (fun parts => DeclForm.function name parts.1 parts.2.1 parts.2.2.1 parts.2.2.2.1 parts.2.2.2.2)
      (fun parts => by
        change parts.1.map Occurrence.decl ++ parts.2.1.toList.map _ ++ parts.2.2.1.map _ ++
          TypeExpr.occurrencesList _ ++ Body.occurrences _ = _
        rw [map_decl_eq, map_decl_eq, map_decl_eq, optionalType_eq, optionalBody_eq,
          List.append_assoc, List.append_assoc, List.append_assoc]
        rfl) (fun _ _ _ => rfl) (by simp [DeclForm.traverse])
  | valueParam name ty default =>
    exact ((TypeExpr.traverses ty).pair (Expr.traversesOption default)).under
      (fun parts => DeclForm.valueParam name parts.1 parts.2) (fun _ => rfl) (fun _ _ _ => rfl)
      (by simp [DeclForm.traverse])
  | receiverParam ty =>
    exact (TypeExpr.traverses ty).under DeclForm.receiverParam (fun _ => rfl) (fun _ _ _ => rfl)
      (map_eq_pure_bind ..).symm
  | typeParam name bounds =>
    exact (TypeExpr.traversesList bounds).under (DeclForm.typeParam name) (fun _ => rfl)
      (fun _ _ _ => rfl) (map_eq_pure_bind ..).symm

end DeclForm

theorem forM_congr {p q : α → Pass σ Unit} {xs : List α} (agree : ∀ x ∈ xs, p x = q x) :
    xs.forM p = xs.forM q := by
  simp only [List.forM_eq_forM]
  induction xs with
  | nil => rw [List.forM_nil, List.forM_nil]
  | cons x xs ih =>
    rw [List.forM_cons, List.forM_cons, agree x List.mem_cons_self,
      ih fun other inside => agree other (List.mem_cons_of_mem x inside)]

section Agreement

variable {τ : Type} {R : σ → τ → Prop} {f : SymbolId → Pass σ SymbolId}
  {f' : SymbolId → Pass τ SymbolId} {g : DeclId → Pass σ DeclId} {g' : DeclId → Pass τ DeclId}

theorem TypeExpr.Head.traverse_accord (mentions : ∀ id, Pass.Accord R (f id) (f' id)) (head : Head) :
    Pass.Accord R (head.traverse f) (head.traverse f') := by
  cases head with
  | param symbol => exact (mentions symbol).bind fun _ => .pure _
  | named name => exact .pure _
  | function => exact .pure _

mutual

theorem TypeExpr.traverse_accord (mentions : ∀ id, Pass.Accord R (f id) (f' id)) :
    (ty : TypeExpr) → Pass.Accord R (ty.traverse f) (ty.traverse f')
  | ⟨head, args, _, _⟩ =>
    (Head.traverse_accord mentions head).bind fun _ =>
      (TypeExpr.traverseList_accord mentions args).bind fun _ => .pure _

theorem TypeExpr.traverseList_accord (mentions : ∀ id, Pass.Accord R (f id) (f' id)) :
    (tys : List TypeExpr) →
    Pass.Accord R (TypeExpr.traverseList f tys) (TypeExpr.traverseList f' tys)
  | [] => .pure _
  | ty :: tys =>
    (TypeExpr.traverse_accord mentions ty).bind fun _ =>
      (TypeExpr.traverseList_accord mentions tys).bind fun _ => .pure _

end

mutual

theorem Expr.traverse_accord (mentions : ∀ id, Pass.Accord R (f id) (f' id)) :
    (expr : Expr) → (inside : ∀ id ∈ expr.nested, Pass.Accord R (g id) (g' id)) →
    Pass.Accord R (expr.traverse f g) (expr.traverse f' g')
  | .literal _, _ => .pure _
  | .read symbol, _ => (mentions symbol).bind fun _ => .pure _
  | .call callee typeArgs receiver args, inside => by
    rw [Expr.nested, List.forall_mem_append] at inside
    refine (mentions callee).bind fun _ => ?_
    refine (TypeExpr.traverseList_accord mentions typeArgs).bind fun _ => ?_
    refine (Expr.traverseOption_accord mentions receiver inside.1).bind fun _ => ?_
    exact (Expr.traverseList_accord mentions args inside.2).bind fun _ => .pure _
  | .construct ctor typeArgs args, inside => by
    refine (mentions ctor).bind fun _ => ?_
    refine (TypeExpr.traverseList_accord mentions typeArgs).bind fun _ => ?_
    exact (Expr.traverseList_accord mentions args inside).bind fun _ => .pure _
  | .lambda decl, inside => (inside decl (List.mem_singleton_self decl)).bind fun _ => .pure _
  | .block stmts, inside => (Stmt.traverseList_accord mentions stmts inside).bind fun _ => .pure _

theorem Expr.traverseOption_accord (mentions : ∀ id, Pass.Accord R (f id) (f' id)) :
    (expr : Option Expr) → (inside : ∀ id ∈ Expr.nestedOption expr, Pass.Accord R (g id) (g' id)) →
    Pass.Accord R (Expr.traverseOption f g expr) (Expr.traverseOption f' g' expr)
  | none, _ => .pure _
  | some expr, inside => (Expr.traverse_accord mentions expr inside).bind fun _ => .pure _

theorem Expr.traverseList_accord (mentions : ∀ id, Pass.Accord R (f id) (f' id)) :
    (exprs : List Expr) → (inside : ∀ id ∈ Expr.nestedList exprs, Pass.Accord R (g id) (g' id)) →
    Pass.Accord R (Expr.traverseList f g exprs) (Expr.traverseList f' g' exprs)
  | [], _ => .pure _
  | expr :: exprs, inside => by
    rw [Expr.nestedList, List.forall_mem_append] at inside
    refine (Expr.traverse_accord mentions expr inside.1).bind fun _ => ?_
    exact (Expr.traverseList_accord mentions exprs inside.2).bind fun _ => .pure _

theorem Stmt.traverse_accord (mentions : ∀ id, Pass.Accord R (f id) (f' id)) :
    (stmt : Stmt) → (inside : ∀ id ∈ stmt.nested, Pass.Accord R (g id) (g' id)) →
    Pass.Accord R (stmt.traverse f g) (stmt.traverse f' g')
  | .decl id, inside => (inside id (List.mem_singleton_self id)).bind fun _ => .pure _
  | .expr value, inside => (Expr.traverse_accord mentions value inside).bind fun _ => .pure _
  | .ret value, inside => (Expr.traverseOption_accord mentions value inside).bind fun _ => .pure _

theorem Stmt.traverseList_accord (mentions : ∀ id, Pass.Accord R (f id) (f' id)) :
    (stmts : List Stmt) → (inside : ∀ id ∈ Stmt.nestedList stmts, Pass.Accord R (g id) (g' id)) →
    Pass.Accord R (Stmt.traverseList f g stmts) (Stmt.traverseList f' g' stmts)
  | [], _ => .pure _
  | stmt :: stmts, inside => by
    rw [Stmt.nestedList, List.forall_mem_append] at inside
    refine (Stmt.traverse_accord mentions stmt inside.1).bind fun _ => ?_
    exact (Stmt.traverseList_accord mentions stmts inside.2).bind fun _ => .pure _

end

/-- Traversals agree where they agree on what is mentioned and on the declarations directly inside. -/
theorem DeclForm.traverse_accord {form : DeclForm} (mentions : ∀ id, Pass.Accord R (f id) (f' id))
    (inside : ∀ id ∈ form.children, Pass.Accord R (g id) (g' id)) :
    Pass.Accord R (form.traverse f g) (form.traverse f' g') := by
  have optional {id : Option DeclId}
      (within : ∀ inner ∈ id.toList, Pass.Accord R (g inner) (g' inner)) :
      Pass.Accord R (id.mapM g) (id.mapM g') :=
    .optionMapM fun inner held => within inner (Option.mem_toList.2 held)
  have inBody {body : Option Body}
      (within : ∀ id ∈ Body.nested (body.getD []), Pass.Accord R (g id) (g' id)) :
      Pass.Accord R (body.mapM (Body.traverse f g)) (body.mapM (Body.traverse f' g')) := by
    refine .optionMapM fun stmts held => ?_
    obtain rfl := held
    exact Stmt.traverseList_accord mentions stmts within
  cases form with
  | cls name typeParams thisReceiver members =>
    simp only [children, List.forall_mem_append] at inside
    refine Pass.Accord.bind (.mapM inside.1.1) fun _ => ?_
    refine (optional inside.1.2).bind fun _ => ?_
    exact Pass.Accord.bind (.mapM inside.2) fun _ => .pure _
  | ctor typeParams params body =>
    simp only [children, List.forall_mem_append] at inside
    refine Pass.Accord.bind (.mapM inside.1.1) fun _ => ?_
    refine Pass.Accord.bind (.mapM inside.1.2) fun _ => ?_
    exact (inBody inside.2).bind fun _ => .pure _
  | function name typeParams receiver params result body =>
    simp only [children, List.forall_mem_append] at inside
    refine Pass.Accord.bind (.mapM inside.1.1.1) fun _ => ?_
    refine (optional inside.1.1.2).bind fun _ => ?_
    refine Pass.Accord.bind (.mapM inside.1.2) fun _ => ?_
    refine Pass.Accord.bind (.optionMapM fun ty _ => TypeExpr.traverse_accord mentions ty) fun _ => ?_
    exact (inBody inside.2).bind fun _ => .pure _
  | valueParam name ty default =>
    refine (TypeExpr.traverse_accord mentions ty).bind fun _ => ?_
    exact (Expr.traverseOption_accord mentions default inside).bind fun _ => .pure _
  | receiverParam ty => exact (TypeExpr.traverse_accord mentions ty).bind fun _ => .pure _
  | typeParam name bounds =>
    exact (TypeExpr.traverseList_accord mentions bounds).bind fun _ => .pure _

end Agreement

/-- Only what a traversal does with the declarations directly inside matters. -/
theorem DeclForm.traverse_congr {f : SymbolId → Pass σ SymbolId} {g g' : DeclId → Pass σ DeclId}
    {form : DeclForm} (agree : ∀ id ∈ form.children, g id = g' id) :
    form.traverse f g = form.traverse f g' :=
  (DeclForm.traverse_accord (fun _ => .of_eq rfl) fun id inside => .of_eq (agree id inside)).eq_of_eq

end Relabel
