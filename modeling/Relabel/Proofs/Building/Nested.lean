import Relabel.Proofs.Building
import Relabel.Proofs.Copy.Isomorphism

namespace Relabel

/-- A nameless function around a declaration. -/
def Nesting.wrapper (style : Nesting) (inner : DeclId) : DeclForm :=
  .function .empty [] none [] none (some [style.stmt inner])

theorem Nesting.children_wrapper (style : Nesting) (inner : DeclId) :
    (style.wrapper inner).children = [inner] := by
  cases style <;> rfl

namespace DeclTree

variable {tree : DeclTree} {depth : Nat} {id : DeclId}

/-- What fits still does when a declaration is added, and it is walked as before. -/
theorem Fits.add (fits : tree.Fits depth id) (other : Decl) :
    (tree.add other).2.Fits depth id ∧
      (tree.add other).2.preorderFrom depth id = tree.preorderFrom depth id := by
  induction depth generalizing id with
  | zero => exact fits.elim
  | succ depth ih =>
    obtain ⟨decl, found, below⟩ := fits
    obtain ⟨container, still⟩ := get?_add_of_get? found other
    refine ⟨⟨_, still, fun child listed => (ih (below child listed)).1⟩, ?_⟩
    rw [preorderFrom_of_get? still, preorderFrom_of_get? found]
    exact congrArg (List.cons id) (List.flatMap_congr fun child listed => (ih (below child listed)).2)

end DeclTree

namespace CompilationUnit

variable {unit : CompilationUnit}

/-- The outermost declaration of a nest. -/
def nestTop (unit : CompilationUnit) (inner : DeclId) : (depth : Nat) → DeclId
  | 0 => inner
  | depth + 1 => ⟨unit.tree.size + depth⟩

/-- The steps that build a nest, from the inside out. -/
def nestSteps (unit : CompilationUnit) (style : Nesting) (inner : DeclId) :
    (depth : Nat) → List BuildStep
  | 0 => []
  | depth + 1 => unit.nestSteps style inner depth ++
      [.add .declared (.function .plain) (style.wrapper (unit.nestTop inner depth))
        ⟨depth, depth + 1⟩]

theorem buildAll_concat (unit : CompilationUnit) (steps : List BuildStep) (last : BuildStep) :
    unit.buildAll (steps ++ [last]) = (unit.buildAll steps).build last :=
  List.foldl_concat ..

theorem size_buildAll_nestSteps (unit : CompilationUnit) (style : Nesting) (inner : DeclId)
    (depth : Nat) :
    (unit.buildAll (unit.nestSteps style inner depth)).tree.size = unit.tree.size + depth := by
  induction depth with
  | zero => rfl
  | succ depth ih =>
    rw [nestSteps, buildAll_concat, build_add, DeclTree.size_add, ih, Nat.add_assoc]

theorem add_fst (unit : CompilationUnit) (origin : Symbol.Origin) (kind : Symbol.Kind)
    (form : DeclForm) (span : Span) : (unit.add origin kind form span).1 = ⟨unit.tree.size⟩ := by
  simp only [add, declare]
  split <;> rfl

/-- To nest a declaration is to build. -/
theorem nest_eq_buildAll (unit : CompilationUnit) (style : Nesting) (inner : DeclId) (depth : Nat) :
    unit.nest style inner depth =
      (unit.nestTop inner depth, unit.buildAll (unit.nestSteps style inner depth)) := by
  induction depth with
  | zero => rfl
  | succ depth ih =>
    rw [nest, ih, nestSteps, buildAll_concat, nestTop, ← size_buildAll_nestSteps unit style inner]
    exact Prod.ext (add_fst _ _ _ _ _) rfl

/-- A walk into a nest comes through its functions, from the outside in, and then to what they have been
put around. -/
theorem preorderFrom_nest {room : Nat} {inner : DeclId} (fits : unit.tree.Fits room inner)
    (style : Nesting) (depth : Nat) :
    (unit.nest style inner depth).2.tree.Fits (depth + room) (unit.nest style inner depth).1 ∧
      (unit.nest style inner depth).2.tree.preorderFrom (depth + room)
          (unit.nest style inner depth).1 =
        ((List.range depth).map fun level => ⟨unit.tree.size + level⟩).reverse ++
          unit.tree.preorderFrom room inner := by
  rw [nest_eq_buildAll]
  dsimp only
  induction depth with
  | zero =>
    rw [Nat.zero_add]
    exact ⟨fits, rfl⟩
  | succ depth ih =>
    obtain ⟨fitsBelow, walk⟩ := ih
    have size := size_buildAll_nestSteps unit style inner depth
    rw [nestSteps, buildAll_concat, nestTop, build_add, ← size]
    generalize unit.buildAll (unit.nestSteps style inner depth) = before at *
    let outer : Decl :=
      { symbol := ⟨before.symbols.size⟩, form := style.wrapper (unit.nestTop inner depth)
        span := ⟨depth, depth + 1⟩ }
    have found : (before.tree.add outer).2.get? ⟨before.tree.size⟩ = some outer :=
      (DeclTree.get?_add _ _ _).trans (if_pos rfl)
    have listed : outer.form.children = [unit.nestTop inner depth] := style.children_wrapper _
    obtain ⟨still, sameWalk⟩ := fitsBelow.add outer
    rw [Nat.add_right_comm]
    refine ⟨⟨outer, found, ?_⟩, ?_⟩
    · rw [listed]
      exact List.forall_mem_singleton.2 still
    · rw [DeclTree.preorderFrom_of_get? found, listed, List.flatMap_singleton, sameWalk, walk,
        List.range_succ, List.map_append, List.reverse_append, size]
      rfl

end CompilationUnit

end Relabel
