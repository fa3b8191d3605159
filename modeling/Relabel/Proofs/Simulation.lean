import Relabel.Tree.Walk

namespace Relabel.Pass

variable {σ τ ι ε α β γ δ : Type}

/-- Two runs end alike: both fail with one error in states that `err` relates, or both succeed with
results and states that `post` relates. -/
inductive Alike (post : α → σ → β → τ → Prop) (err : σ → τ → Prop) :
    EStateM.Result PassError σ α → EStateM.Result PassError τ β → Prop where
  | ok {a : α} {s : σ} {b : β} {t : τ} (related : post a s b t) : Alike post err (.ok a s) (.ok b t)
  | error {error : PassError} {s : σ} {t : τ} (related : err s t) :
    Alike post err (.error error s) (.error error t)

namespace Alike

variable {mid post : α → σ → β → τ → Prop} {err : σ → τ → Prop}

theorem mono {weaker : α → σ → β → τ → Prop} {r : EStateM.Result PassError σ α}
    {q : EStateM.Result PassError τ β} {err' : σ → τ → Prop} (alike : Alike post err r q)
    (weaken : ∀ a s b t, post a s b t → weaker a s b t)
    (weakenErr : ∀ s t, err s t → err' s t) : Alike weaker err' r q := by
  cases alike with
  | ok related => exact .ok (weaken _ _ _ _ related)
  | error related => exact .error (weakenErr _ _ related)

theorem bind {last : γ → σ → δ → τ → Prop} {p : Pass σ α} {q : Pass τ β} {f : α → Pass σ γ}
    {g : β → Pass τ δ} {s : σ} {t : τ} (first : Alike mid err (p.run s) (q.run t))
    (next : ∀ a s b t, mid a s b t → Alike last err ((f a).run s) ((g b).run t)) :
    Alike last err ((p >>= f).run s) ((q >>= g).run t) := by
  rw [EStateM.run_bind, EStateM.run_bind]
  generalize p.run s = r at first
  generalize q.run t = u at first
  cases first with
  | ok related => exact next _ _ _ _ related
  | error related => exact .error related

theorem trans {υ : Type} {second : β → τ → γ → υ → Prop} {err' : τ → υ → Prop}
    {r : EStateM.Result PassError σ α} {q : EStateM.Result PassError τ β}
    {u : EStateM.Result PassError υ γ} (left : Alike post err r q) (right : Alike second err' q u) :
    Alike (fun a s c v => ∃ b t, post a s b t ∧ second b t c v) (fun s v => ∃ t, err s t ∧ err' t v)
      r u := by
  cases left with
  | ok first =>
    cases right with
    | ok next => exact .ok ⟨_, _, first, next⟩
  | error first =>
    cases right with
    | error next => exact .error ⟨_, first, next⟩

/-- On the left, one more step that cannot fail. -/
theorem andThen {last : γ → σ → β → τ → Prop} {p : Pass σ α} {f : α → Pass σ γ} {s : σ}
    {q : EStateM.Result PassError τ β} (first : Alike mid err (p.run s) q)
    (next : ∀ a s b t, mid a s b t → ∃ c after, (f a).run s = .ok c after ∧ last c after b t) :
    Alike last err ((p >>= f).run s) q := by
  rw [EStateM.run_bind]
  generalize p.run s = r at first
  cases first with
  | ok related =>
    obtain ⟨c, after, run, related⟩ := next _ _ _ _ related
    simp only [run]
    exact .ok related
  | error related => exact .error related

end Alike

/-- Two passes over one state change it alike and fail alike; `R` relates their results. -/
def Mirrors (R : α → β → Prop) (p : Pass σ α) (q : Pass σ β) : Prop :=
  ∀ s, Alike (fun a s b t => s = t ∧ R a b) Eq (p.run s) (q.run s)

namespace Mirrors

variable {R : α → β → Prop}

theorem pure {a : α} {b : β} (related : R a b) : Mirrors R (Pure.pure a : Pass σ α) (Pure.pure b) :=
  fun _ => .ok ⟨rfl, related⟩

theorem bind {S : γ → δ → Prop} {p : Pass σ α} {q : Pass σ β} {f : α → Pass σ γ}
    {g : β → Pass σ δ} (first : Mirrors R p q) (next : ∀ a b, R a b → Mirrors S (f a) (g b)) :
    Mirrors S (p >>= f) (q >>= g) := by
  intro s
  apply (first s).bind
  rintro a s b t ⟨rfl, related⟩
  exact next a b related s

theorem alike {p : Pass σ α} {q : Pass σ β} (mirrors : Mirrors R p q)
    {post : β → σ → γ → τ → Prop} {err : σ → τ → Prop} {s : σ}
    {r : EStateM.Result PassError τ γ} (second : Alike post err (q.run s) r) :
    Alike (fun a s c t => ∃ b, R a b ∧ post b s c t) err (p.run s) r := by
  have first := mirrors s
  generalize p.run s = u at first
  generalize q.run s = v at first second
  cases first with
  | ok related =>
    obtain ⟨rfl, related⟩ := related
    cases second with
    | ok after => exact .ok ⟨_, related, after⟩
  | error same =>
    subst same
    cases second with
    | error related => exact .error related

theorem map {S : γ → δ → Prop} {p : Pass σ α} {q : Pass σ β} {f : α → γ} {g : β → δ}
    (first : Mirrors R p q) (next : ∀ a b, R a b → S (f a) (g b)) :
    Mirrors S (f <$> p) (g <$> q) := by
  rw [map_eq_pure_bind, map_eq_pure_bind]
  exact first.bind fun a b related => pure (next a b related)

end Mirrors

/-- From states that `R` relates, two passes end alike: with one result or one error, and in such states
again. -/
def Accord (R : σ → τ → Prop) (p : Pass σ α) (q : Pass τ α) : Prop :=
  ∀ s t, R s t → Alike (fun a s b t => a = b ∧ R s t) R (p.run s) (q.run t)

namespace Accord

variable {R : σ → τ → Prop}

theorem pure (a : α) : Accord R (Pure.pure a) (Pure.pure a) :=
  fun _ _ related => .ok ⟨rfl, related⟩

theorem bind {p : Pass σ α} {q : Pass τ α} {f : α → Pass σ β} {g : α → Pass τ β}
    (first : Accord R p q) (next : ∀ a, Accord R (f a) (g a)) : Accord R (p >>= f) (q >>= g) := by
  intro s t related
  apply (first s t related).bind
  rintro a s _ t ⟨rfl, related⟩
  exact next a s t related

theorem map {p : Pass σ α} {q : Pass τ α} (first : Accord R p q) (f : α → β) :
    Accord R (f <$> p) (f <$> q) := by
  rw [map_eq_pure_bind, map_eq_pure_bind]
  exact first.bind fun a => pure (f a)

theorem mapM {p : α → Pass σ β} {q : α → Pass τ β} {xs : List α}
    (each : ∀ x ∈ xs, Accord R (p x) (q x)) : Accord R (xs.mapM p) (xs.mapM q) := by
  induction xs with
  | nil => exact pure []
  | cons x xs ih =>
    rw [List.mapM_cons, List.mapM_cons]
    refine (each x List.mem_cons_self).bind fun first => ?_
    refine (ih fun other inside => each other (List.mem_cons_of_mem x inside)).bind fun rest => ?_
    exact pure (first :: rest)

theorem optionMapM {p : α → Pass σ β} {q : α → Pass τ β} {x : Option α}
    (each : ∀ y ∈ x, Accord R (p y) (q y)) : Accord R (x.mapM p) (x.mapM q) := by
  cases x with
  | none => exact pure none
  | some y => exact (each y rfl).map some

theorem ofExcept (wrap : ε → PassError) (result : Except ε α) :
    Accord R (Pass.ofExcept wrap result) (Pass.ofExcept wrap result) := by
  intro s t related
  cases result with
  | ok value => exact .ok ⟨rfl, related⟩
  | error error => exact .error related

/-- Passes on parts of the states, where related states have related parts. -/
theorem within {σ' τ' : Type} {S : σ' → τ' → Prop} {p : Pass σ' α} {q : Pass τ' α}
    {part : σ → σ'} {put : σ' → σ → σ} {part' : τ → τ'} {put' : τ' → τ → τ}
    (inner : Accord S p q) (view : ∀ s t, R s t → S (part s) (part' t))
    (update : ∀ s t s' t', R s t → S s' t' → R (put s' s) (put' t' t)) :
    Accord R (Pass.within part put p) (Pass.within part' put' q) := by
  intro s t related
  have ends := inner _ _ (view s t related)
  rw [run_within, run_within]
  generalize p.run (part s) = r at ends
  generalize q.run (part' t) = u at ends
  cases ends with
  | ok after => exact .ok ⟨after.1, update s t _ _ related after.2⟩
  | error after => exact .error (update s t _ _ related after)

theorem forM {p : α → Pass σ Unit} {q : α → Pass τ Unit} {xs : List α}
    (each : ∀ x ∈ xs, Accord R (p x) (q x)) : Accord R (xs.forM p) (xs.forM q) := by
  rw [List.forM_eq_forM, List.forM_eq_forM]
  induction xs with
  | nil => exact pure ()
  | cons x xs ih =>
    rw [List.forM_cons, List.forM_cons]
    refine (each x List.mem_cons_self).bind fun _ => ?_
    exact ih fun other inside => each other (List.mem_cons_of_mem x inside)

section Walk

variable {tree : DeclTree} {visit : DeclId → Pass σ Unit} {visit' : DeclId → Pass τ Unit}
  (each : ∀ id, Accord R (visit id) (visit' id))

include each

theorem walkFrom (entered : DeclForm → Bool) (depth : Nat) (id : DeclId) :
    Accord R (tree.walkFrom entered visit depth id) (tree.walkFrom entered visit' depth id) := by
  induction depth generalizing id with
  | zero => exact ofExcept .inTree (.error (.endless tree.id id))
  | succ depth ih =>
    refine (each id).bind fun _ => (ofExcept .inTree (tree.get id)).bind fun decl => ?_
    split
    · exact forM fun child _ => ih child
    · exact pure ()

theorem walkAll : Accord R (tree.walkAll visit) (tree.walkAll visit') :=
  forM fun root _ => walkFrom each _ tree.maxDepth root

end Walk

/-- Passes over one state that agree are the same. -/
theorem eq_of_eq {p q : Pass σ α} (accord : Accord Eq p q) : p = q := by
  funext s
  have ends := accord s s rfl
  change p.run s = q.run s
  generalize p.run s = r at ends
  generalize q.run s = u at ends
  cases ends with
  | ok related =>
    obtain ⟨rfl, rfl⟩ := related
    rfl
  | error same => rw [same]

theorem of_eq {p q : Pass σ α} (same : p = q) : Accord Eq p q := by
  subst same
  rintro s _ rfl
  cases p.run s with
  | ok a t => exact .ok ⟨rfl, rfl⟩
  | error error t => exact .error rfl

end Accord

section Logging

/-- The right state is the left one with a log beside it. -/
def Logging (state : σ) (logged : σ × List ι) : Prop := logged.1 = state

/-- Runs a pass beside a log that it does not see. -/
def aside (pass : Pass σ α) : Pass (σ × List ι) α :=
  within Prod.fst (fun after state => (after, state.2)) pass

theorem accord_aside (pass : Pass σ α) :
    Accord Logging pass (aside pass : Pass (σ × List ι) α) := by
  rintro _ ⟨state, log⟩ rfl
  rw [aside, run_within]
  dsimp only
  cases pass.run state with
  | ok value after => exact .ok ⟨rfl, rfl⟩
  | error error after => exact .error rfl

theorem run_aside_eq_ok_iff {pass : Pass σ α} {before after : σ × List ι} {value : α} :
    (aside pass).run before = .ok value after ↔
      pass.run before.1 = .ok value after.1 ∧ after.2 = before.2 := by
  rw [aside, run_within_eq_ok_iff]
  constructor
  · rintro ⟨middle, run, rfl⟩
    exact ⟨run, rfl⟩
  · rintro ⟨run, same⟩
    exact ⟨after.1, run, by rw [← same]⟩

end Logging

end Relabel.Pass
