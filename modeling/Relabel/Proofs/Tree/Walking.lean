import Relabel.Proofs.Tree.Nesting

namespace Relabel.DeclTree

variable {σ : Type} {tree : DeclTree}

/-- A walk that has `pending` to visit meets the declarations in `met`, one after the other, and then
has those in `left` to visit still. What is inside a declaration is visited right after it, and nothing
is inside what is not in the tree. -/
inductive Walks (tree : DeclTree) : (pending met left : List DeclId) → Prop where
  | stop (pending : List DeclId) : Walks tree pending [] pending
  | visit {id : DeclId} {rest met left : List DeclId}
    (next : Walks tree (tree.childrenOf id ++ rest) met left) : Walks tree (id :: rest) (id :: met) left

namespace Walks

variable {pending met left : List DeclId}

/-- What waits at the end does not matter before its turn. -/
theorem append (walks : tree.Walks pending met left) (rest : List DeclId) :
    tree.Walks (pending ++ rest) met (left ++ rest) := by
  induction walks with
  | stop pending => exact .stop _
  | visit _ ih =>
    rw [List.append_assoc] at ih
    exact .visit ih

theorem trans {metNext leftNext : List DeclId} (first : tree.Walks pending met left)
    (second : tree.Walks left metNext leftNext) :
    tree.Walks pending (met ++ metNext) leftNext := by
  induction first with
  | stop pending => exact second
  | visit _ ih => exact .visit (ih second)

/-- A walk that goes further goes on where the other one stopped. -/
theorem goesOn {metLater leftLater : List DeclId} (walks : tree.Walks pending met left)
    (later : tree.Walks pending metLater leftLater) (le : met.length ≤ metLater.length) :
    ∃ next, metLater = met ++ next ∧ tree.Walks left next leftLater := by
  induction walks generalizing metLater leftLater with
  | stop pending => exact ⟨metLater, rfl, later⟩
  | @visit id rest met left _ ih =>
    cases later with
    | stop => exact absurd le (Nat.not_succ_le_zero _)
    | @visit _ _ metNext _ walksNext =>
      obtain ⟨next, rfl, further⟩ := ih walksNext (Nat.le_of_succ_le_succ le)
      exact ⟨next, rfl, further⟩

/-- Walks from the declarations in a list, one after the other, are one walk. -/
theorem flatMap {ids : List DeclId} {below : DeclId → List DeclId}
    (each : ∀ id ∈ ids, tree.Walks [id] (below id) []) : tree.Walks ids (ids.flatMap below) [] := by
  induction ids with
  | nil => exact .stop []
  | cons id ids ih =>
    have first := (each id List.mem_cons_self).append ids
    have rest := ih fun other inside => each other (List.mem_cons_of_mem id inside)
    exact first.trans rest

/-- Where all is in the tree, a walk meets it in preorder. -/
theorem preorderFrom {depth : Nat} {id : DeclId} (fits : tree.Fits depth id) :
    tree.Walks [id] (tree.preorderFrom depth id) [] := by
  induction depth generalizing id with
  | zero => exact fits.elim
  | succ depth ih =>
    obtain ⟨decl, found, below⟩ := fits
    rw [preorderFrom_of_get? found]
    refine .visit ?_
    rw [childrenOf_of_get? found, List.append_nil]
    exact flatMap fun child listed => ih (below child listed)

theorem preorder (fits : ∀ root ∈ tree.roots, tree.Fits tree.maxDepth root) :
    tree.Walks tree.roots tree.preorder [] :=
  flatMap fun root listed => preorderFrom (fits root listed)

end Walks

section Visits

variable {visit : DeclId → Pass σ Unit} {pending : List DeclId} {before : σ}

theorem forM_append_run_eq_ok_iff {first second : List DeclId} {after : σ} :
    ((first ++ second).forM visit).run before = .ok () after ↔
      ∃ middle, (first.forM visit).run before = .ok () middle ∧
        (second.forM visit).run middle = .ok () after := by
  simp only [List.forM_eq_forM]
  rw [List.forM_append, Pass.run_bind_eq_ok_iff]
  constructor
  · rintro ⟨⟨⟩, middle, visits⟩
    exact ⟨middle, visits⟩
  · rintro ⟨middle, visits⟩
    exact ⟨(), middle, visits⟩

theorem forM_singleton_run_eq_ok_iff {id : DeclId} {after : σ} :
    (([id] : List DeclId).forM visit).run before = .ok () after ↔
      (visit id).run before = .ok () after := by
  rw [List.forM_eq_forM, List.forM_cons, Pass.run_bind_eq_ok_iff]
  constructor
  · rintro ⟨⟨⟩, middle, visited, rest⟩
    obtain ⟨-, rfl⟩ := EStateM.Result.ok.inj rest
    exact visited
  · intro visited
    exact ⟨(), after, visited, rfl⟩

/-- Nothing is left to visit, or the next visit fails. -/
inductive Stops (visit : DeclId → Pass σ Unit) : (left : List DeclId) → (state : σ) →
    EStateM.Result PassError σ Unit → Prop where
  | done (state : σ) : Stops visit [] state (.ok () state)
  | failed {next : DeclId} {state after : σ} {error : PassError}
    (fails : (visit next).run state = .error error after) (rest : List DeclId) :
    Stops visit (next :: rest) state (.error error after)

theorem Stops.unique {left : List DeclId} {state : σ} {result other : EStateM.Result PassError σ Unit}
    (stops : Stops visit left state result) (same : Stops visit left state other) :
    result = other := by
  cases stops with
  | done => cases same; rfl
  | failed fails =>
    cases same with
    | failed failsSame => exact fails.symm.trans failsSame

theorem Stops.eq_nil {left met leftLater : List DeclId} {state after : σ}
    {result : EStateM.Result PassError σ Unit} (stops : Stops visit left state result)
    (walks : tree.Walks left met leftLater) (visits : (met.forM visit).run state = .ok () after) :
    met = [] := by
  cases walks with
  | stop => rfl
  | @visit id rest met _ _ =>
    cases stops with
    | failed fails =>
      rw [← List.singleton_append, forM_append_run_eq_ok_iff] at visits
      obtain ⟨middle, visited, -⟩ := visits
      rw [forM_singleton_run_eq_ok_iff, fails] at visited
      exact nomatch visited

/-- A walk makes visits until it stops, and that is its result. -/
def Ends (tree : DeclTree) (visit : DeclId → Pass σ Unit) (pending : List DeclId) (before : σ)
    (result : EStateM.Result PassError σ Unit) : Prop :=
  ∃ met left middle, tree.Walks pending met left ∧ (met.forM visit).run before = .ok () middle ∧
    Stops visit left middle result

/-- A walk can make this many visits, none of which fails. -/
def GoesOn (tree : DeclTree) (visit : DeclId → Pass σ Unit) (pending : List DeclId) (before : σ)
    (visited : Nat) : Prop :=
  ∃ met left after, tree.Walks pending met left ∧ (met.forM visit).run before = .ok () after ∧
    visited ≤ met.length

theorem Ends.unique {result other : EStateM.Result PassError σ Unit}
    (ends : tree.Ends visit pending before result) (same : tree.Ends visit pending before other) :
    result = other := by
  obtain ⟨met, left, middle, walks, visits, stops⟩ := ends
  obtain ⟨metSame, leftSame, middleSame, walksSame, visitsSame, stopsSame⟩ := same
  wlog le : met.length ≤ metSame.length generalizing met left middle result metSame leftSame
    middleSame other
  · exact (this _ _ _ walksSame visitsSame stopsSame _ _ _ walks visits stops
      (Nat.le_of_not_le le)).symm
  -- The longer one goes on from where the shorter one stops, so it makes no more visits.
  obtain ⟨next, rfl, onward⟩ := walks.goesOn walksSame le
  obtain ⟨_, first, second⟩ := forM_append_run_eq_ok_iff.1 visitsSame
  obtain ⟨-, rfl⟩ := EStateM.Result.ok.inj (visits.symm.trans first)
  obtain rfl := stops.eq_nil onward second
  cases onward
  obtain ⟨-, rfl⟩ := EStateM.Result.ok.inj second
  exact stops.unique stopsSame

/-- A walk bounded in depth ends as one without bounds, unless it was cut off. -/
def EndsOrCut (tree : DeclTree) (visit : DeclId → Pass σ Unit) (pending : List DeclId) (depth : Nat)
    (before : σ) (result : EStateM.Result PassError σ Unit) : Prop :=
  tree.Ends visit pending before result ∨ tree.GoesOn visit pending before depth

namespace EndsOrCut

variable {depth : Nat}

/-- More visits go before a walk. -/
theorem after {start met : List DeclId} {middle : σ} {shallow : Nat}
    {result : EStateM.Result PassError σ Unit} (walks : tree.Walks start met pending)
    (visits : (met.forM visit).run before = .ok () middle)
    (next : tree.EndsOrCut visit pending shallow middle result)
    (bound : depth ≤ met.length + shallow) : tree.EndsOrCut visit start depth before result := by
  rcases next with ends | goesOn
  · obtain ⟨metNext, left, last, walksNext, visitsNext, stops⟩ := ends
    exact .inl ⟨_, left, last, walks.trans walksNext,
      forM_append_run_eq_ok_iff.2 ⟨middle, visits, visitsNext⟩, stops⟩
  · obtain ⟨metNext, left, last, walksNext, visitsNext, deep⟩ := goesOn
    refine .inr ⟨_, left, last, walks.trans walksNext,
      forM_append_run_eq_ok_iff.2 ⟨middle, visits, visitsNext⟩, ?_⟩
    rw [List.length_append]
    omega

/-- A walk from the declarations in a list, one after the other. -/
theorem forM {step : DeclId → Pass σ Unit} {ids : List DeclId}
    (each : ∀ id ∈ ids, ∀ before, tree.EndsOrCut visit [id] depth before ((step id).run before))
    (before : σ) : tree.EndsOrCut visit ids depth before ((ids.forM step).run before) := by
  rw [List.forM_eq_forM]
  induction ids generalizing before with
  | nil => exact .inl ⟨[], [], before, .stop [], rfl, .done before⟩
  | cons id ids ih =>
    have others := fun other inside => each other (List.mem_cons_of_mem id inside)
    rw [List.forM_cons, EStateM.run_bind]
    rcases each id List.mem_cons_self before with ends | goesOn
    · obtain ⟨met, left, middle, walks, visits, stops⟩ := ends
      generalize (step id).run before = ran at stops
      cases stops with
      | done =>
        have rest := ih others middle
        exact rest.after (walks.append ids) visits (Nat.le_add_left _ _)
      | failed fails rest =>
        exact .inl ⟨met, _, middle, walks.append ids, visits, .failed fails _⟩
    · obtain ⟨met, left, middle, walks, visits, deep⟩ := goesOn
      exact .inr ⟨met, _, middle, walks.append ids, visits, deep⟩

/-- A bounded walk makes its visits in the order of one without bounds, until a visit fails. -/
theorem walkFrom (refuses : ∀ id, tree.get? id = none → ∀ before, ∃ error after,
      (visit id).run before = .error error after) (depth : Nat) (id : DeclId) (before : σ) :
    tree.EndsOrCut visit [id] depth before
      ((tree.walkFrom (fun _ => true) visit depth id).run before) := by
  induction depth generalizing id before with
  | zero => exact .inr ⟨[], [id], before, .stop [id], rfl, Nat.zero_le _⟩
  | succ depth ih =>
    rw [DeclTree.walkFrom, EStateM.run_bind]
    cases visited : (visit id).run before with
    | error error after => exact .inl ⟨[], [id], before, .stop [id], rfl, .failed visited []⟩
    | ok value middle =>
      cases found : tree.get? id with
      | none =>
        obtain ⟨error, after, refused⟩ := refuses id found before
        rw [visited] at refused
        cases refused
      | some decl =>
        have below : tree.EndsOrCut visit decl.form.children depth middle
            ((decl.form.children.forM (tree.walkFrom (fun _ => true) visit depth)).run middle) :=
          forM (fun child _ => ih child) middle
        -- The visit here makes up for the depth that the walk below has less.
        have first : tree.Walks [id] [id] decl.form.children := by
          refine .visit ?_
          rw [childrenOf_of_get? found, List.append_nil]
          exact .stop _
        simp only [Pass.decl_eq_pure found, pure_bind, if_true]
        exact below.after first (forM_singleton_run_eq_ok_iff.2 visited)
          (Nat.le_of_eq (Nat.add_comm depth 1))

end EndsOrCut

/-- A walk from the roots ends as one without bounds if that makes fewer visits than it may go deep.
-/
theorem ends_forM_walkFrom (refuses : ∀ id, tree.get? id = none → ∀ before, ∃ error after,
      (visit id).run before = .error error after) {depth : Nat} (ids : List DeclId)
    (bounded : ¬tree.GoesOn visit ids before depth) :
    tree.Ends visit ids before
      ((ids.forM (tree.walkFrom (fun _ => true) visit depth)).run before) := by
  have walked := EndsOrCut.forM (fun id (_ : id ∈ ids) => EndsOrCut.walkFrom refuses depth id) before
  exact walked.resolve_right bounded

end Visits

end Relabel.DeclTree
