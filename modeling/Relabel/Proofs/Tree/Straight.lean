import Relabel.Proofs.Tree.Walking

namespace Relabel.DeclTree

variable {σ : Type} {tree : DeclTree} {fine : DeclId → Prop}

/-- A walk that has `pending` to visit comes to a declaration, and all that it meets before is fine. -/
def ComesTo (tree : DeclTree) (fine : DeclId → Prop) (pending : List DeclId) (id : DeclId) : Prop :=
  ∃ met rest, tree.Walks pending met (id :: rest) ∧ ∀ other ∈ met, fine other

/-- No declaration that a walk comes to leads back to itself. -/
def Straight (tree : DeclTree) (fine : DeclId → Prop) (pending : List DeclId) : Prop :=
  ∀ id, tree.ComesTo fine pending id → fine id → ¬tree.ComesTo fine (tree.childrenOf id) id

namespace ComesTo

variable {pending : List DeclId} {id other : DeclId}

theorem head (id : DeclId) (rest : List DeclId) : tree.ComesTo fine (id :: rest) id :=
  ⟨[], rest, .stop _, List.forall_mem_nil _⟩

theorem after {start met : List DeclId} (walks : tree.Walks start met pending)
    (visited : ∀ other ∈ met, fine other) (comes : tree.ComesTo fine pending id) :
    tree.ComesTo fine start id := by
  obtain ⟨next, rest, onward, visitedNext⟩ := comes
  exact ⟨met ++ next, rest, walks.trans onward, List.forall_mem_append.2 ⟨visited, visitedNext⟩⟩

/-- What is inside a declaration is met right after it. -/
theorem trans (comes : tree.ComesTo fine pending id) (good : fine id)
    (further : tree.ComesTo fine (tree.childrenOf id) other) : tree.ComesTo fine pending other := by
  obtain ⟨met, rest, walks, visited⟩ := comes
  obtain ⟨next, later, onward, visitedNext⟩ := further
  have below : tree.ComesTo fine (tree.childrenOf id ++ rest) other :=
    ⟨next, later ++ rest, onward.append rest, visitedNext⟩
  have entered : tree.Walks (id :: rest) [id] (tree.childrenOf id ++ rest) := .visit (.stop _)
  have here : tree.ComesTo fine (id :: rest) other :=
    below.after entered (List.forall_mem_singleton.2 good)
  exact here.after walks visited

/-- A walk that comes to a declaration that leads back to itself comes there again and again. -/
theorem again (comes : tree.ComesTo fine pending id) (good : fine id)
    (back : tree.ComesTo fine (tree.childrenOf id) id) (visits : Nat) :
    ∃ met rest, tree.Walks pending met (id :: rest) ∧ (∀ other ∈ met, fine other) ∧
      visits ≤ met.length := by
  induction visits with
  | zero =>
    obtain ⟨met, rest, walks, visited⟩ := comes
    exact ⟨met, rest, walks, visited, Nat.zero_le _⟩
  | succ visits ih =>
    obtain ⟨met, rest, walks, visited, long⟩ := ih
    obtain ⟨next, later, onward, visitedNext⟩ := back
    have round : tree.Walks (id :: rest) (id :: next) (id :: later ++ rest) :=
      .visit (onward.append rest)
    refine ⟨met ++ id :: next, later ++ rest, walks.trans round, ?_, ?_⟩
    · exact List.forall_mem_append.2 ⟨visited, List.forall_mem_cons.2 ⟨good, visitedNext⟩⟩
    · rw [List.length_append, List.length_cons]
      omega

end ComesTo

/-- A walk that meets something wrong has not gone in a circle before. -/
theorem straight_of_walks {pending met rest : List DeclId} {wrong : DeclId}
    (walks : tree.Walks pending met (wrong :: rest)) (bad : ¬fine wrong) :
    tree.Straight fine pending := by
  intro id comes good back
  obtain ⟨longer, later, walksOn, visited, long⟩ := comes.again good back (met.length + 1)
  obtain ⟨next, rfl, onward⟩ := walks.goesOn walksOn (by omega)
  rw [List.length_append] at long
  cases onward with
  | stop =>
    rw [List.length_nil] at long
    omega
  | visit =>
    refine bad (visited wrong (List.mem_append_right met ?_))
    exact List.mem_cons_self

/-- Whether a visit fails does not depend on the visits before it: it fails at what is not fine. -/
structure Uniform (tree : DeclTree) (visit : DeclId → Pass σ Unit) (keeps : σ → Prop)
    (fine : DeclId → Prop) : Prop where
  known : ∀ id, fine id → ∃ decl, tree.get? id = some decl
  passes : ∀ id before, keeps before → fine id →
    ∃ after, (visit id).run before = .ok () after ∧ keeps after
  fails : ∀ id before, keeps before → ¬fine id →
    ∃ error after, (visit id).run before = .error error after

section Visits

variable {visit : DeclId → Pass σ Unit} {keeps : σ → Prop}

/-- A walk ends, and all that it has visited is fine. -/
def EndsWell (tree : DeclTree) (visit : DeclId → Pass σ Unit) (keeps : σ → Prop)
    (fine : DeclId → Prop) (pending : List DeclId) (before : σ)
    (result : EStateM.Result PassError σ Unit) : Prop :=
  ∃ met left middle, tree.Walks pending met left ∧ (∀ id ∈ met, fine id) ∧
    (met.forM visit).run before = .ok () middle ∧ keeps middle ∧ Stops visit left middle result

theorem EndsWell.ends {pending : List DeclId} {before : σ}
    {result : EStateM.Result PassError σ Unit}
    (well : tree.EndsWell visit keeps fine pending before result) :
    tree.Ends visit pending before result := by
  obtain ⟨met, left, middle, walks, -, visits, -, stops⟩ := well
  exact ⟨met, left, middle, walks, visits, stops⟩

theorem EndsWell.after {start met pending : List DeclId} {before middle : σ}
    {result : EStateM.Result PassError σ Unit} (walks : tree.Walks start met pending)
    (visited : ∀ id ∈ met, fine id) (visits : (met.forM visit).run before = .ok () middle)
    (well : tree.EndsWell visit keeps fine pending middle result) :
    tree.EndsWell visit keeps fine start before result := by
  obtain ⟨next, left, last, onward, visitedNext, visitsNext, kept, stops⟩ := well
  exact ⟨met ++ next, left, last, walks.trans onward,
    List.forall_mem_append.2 ⟨visited, visitedNext⟩,
    forM_append_run_eq_ok_iff.2 ⟨middle, visits, visitsNext⟩, kept, stops⟩

/-- Walks from the declarations in a list, where each begins only after those before it have met
nothing wrong. -/
theorem EndsWell.forM {step : DeclId → Pass σ Unit} {ids : List DeclId}
    (each : ∀ id before, tree.ComesTo fine ids id → keeps before →
      tree.EndsWell visit keeps fine [id] before ((step id).run before))
    {before : σ} (start : keeps before) :
    tree.EndsWell visit keeps fine ids before ((ids.forM step).run before) := by
  rw [List.forM_eq_forM]
  induction ids generalizing before with
  | nil => exact ⟨[], [], before, .stop [], (List.forall_mem_nil _), rfl, start, .done before⟩
  | cons id ids ih =>
    rw [List.forM_cons, EStateM.run_bind]
    have well := each id before (.head id ids) start
    obtain ⟨met, left, middle, walks, visited, visits, kept, stops⟩ := well
    generalize (step id).run before = ran at stops
    have walksOn := walks.append ids
    cases stops with
    | done =>
      have others := fun other before (comes : tree.ComesTo fine ids other) =>
        each other before (comes.after walksOn visited)
      exact (ih others kept).after walksOn visited visits
    | failed fails rest =>
      exact ⟨met, _, middle, walksOn, visited, visits, kept, .failed fails _⟩

variable {roots : List DeclId}

/-- A walk that goes in no circle ends before it is cut off: the declarations above the one that it is at
are all different, so they are no more than the tree has. -/
theorem endsWell_walkFrom (uniform : tree.Uniform visit keeps fine)
    (straight : tree.Straight fine roots) {depth : Nat} {id : DeclId} {above : List DeclId}
    {before : σ} (distinct : above.Nodup) (good : ∀ other ∈ above, fine other)
    (leads : ∀ other ∈ above, tree.ComesTo fine (tree.childrenOf other) id)
    (comes : tree.ComesTo fine roots id) (deep : tree.maxDepth ≤ above.length + depth)
    (start : keeps before) : tree.EndsWell visit keeps fine [id] before
      ((tree.walkFrom (fun _ => true) visit depth id).run before) := by
  induction depth generalizing id above before with
  | zero =>
    have short := length_le_size distinct fun other inside => uniform.known other (good other inside)
    unfold maxDepth at deep
    omega
  | succ depth ih =>
    rw [walkFrom, EStateM.run_bind]
    by_cases fineHere : fine id
    · obtain ⟨decl, found⟩ := uniform.known id fineHere
      obtain ⟨middle, visited, kept⟩ := uniform.passes id before start fineHere
      have new : id ∉ above := fun inside => straight id comes fineHere (leads id inside)
      have distinctHere : (id :: above).Nodup := List.nodup_cons.2 ⟨new, distinct⟩
      have first : tree.Walks [id] [id] decl.form.children := by
        refine .visit ?_
        rw [childrenOf_of_get? found, List.append_nil]
        exact .stop _
      have below : tree.EndsWell visit keeps fine decl.form.children middle
          ((decl.form.children.forM (tree.walkFrom (fun _ => true) visit depth)).run middle) := by
        refine EndsWell.forM (fun child before onward kept => ?_) kept
        rw [← childrenOf_of_get? found] at onward
        refine ih distinctHere (List.forall_mem_cons.2 ⟨fineHere, good⟩) ?_
          (comes.trans fineHere onward) ?_ kept
        · intro other inside
          rcases List.mem_cons.1 inside with rfl | higher
          · exact onward
          · exact (leads other higher).trans fineHere onward
        · rw [List.length_cons]
          omega
      simp only [visited, Pass.decl_eq_pure found, pure_bind, if_true]
      exact below.after first (List.forall_mem_singleton.2 fineHere)
        (forM_singleton_run_eq_ok_iff.2 visited)
    · obtain ⟨error, after, failed⟩ := uniform.fails id before start fineHere
      rw [failed]
      exact ⟨[], [id], before, .stop [id], (List.forall_mem_nil _), rfl, start,
        .failed failed []⟩

theorem ends_walkAll (uniform : tree.Uniform visit keeps fine)
    (straight : tree.Straight fine tree.roots) {before : σ} (start : keeps before) :
    tree.Ends visit tree.roots before ((tree.walkAll visit).run before) := by
  have well : tree.EndsWell visit keeps fine tree.roots before ((tree.walkAll visit).run before) := by
    refine EndsWell.forM (fun root before comes kept => ?_) start
    refine endsWell_walkFrom uniform straight List.nodup_nil (List.forall_mem_nil _)
      (List.forall_mem_nil _) comes ?_ kept
    exact Nat.le_of_eq (Nat.zero_add _).symm
  exact well.ends

/-- A walk fails as the visit of the first declaration does that it comes to and that is not fine. -/
theorem walkAll_run_of_walks (uniform : tree.Uniform visit keeps fine) {before middle after : σ}
    {met rest : List DeclId} {wrong : DeclId} {error : PassError} (start : keeps before)
    (walks : tree.Walks tree.roots met (wrong :: rest)) (bad : ¬fine wrong)
    (visits : (met.forM visit).run before = .ok () middle)
    (fails : (visit wrong).run middle = .error error after) :
    (tree.walkAll visit).run before = .error error after := by
  have ends := ends_walkAll uniform (straight_of_walks walks bad) start
  exact ends.unique ⟨met, wrong :: rest, middle, walks, visits, .failed fails rest⟩

end Visits

end Relabel.DeclTree
