import Relabel.Copy.Basic
import Relabel.Proofs.Simulation
import Relabel.Proofs.Tree.Owners

namespace Relabel

variable {σ : Type}

namespace Substitution

/-- Every entry of the smaller substitution is one of the larger, in the same place. -/
def Extends (larger smaller : Substitution) : Prop := smaller.entries <+: larger.entries

theorem Extends.refl (substitution : Substitution) : substitution.Extends substitution :=
  List.prefix_rfl

theorem Extends.trans {a b c : Substitution} (first : b.Extends a) (second : c.Extends b) :
    c.Extends a :=
  List.IsPrefix.trans first second

theorem Extends.get? {larger smaller : Substitution} (extends_ : larger.Extends smaller)
    {old new : SymbolId} (found : smaller.get? old = some new) : larger.get? old = some new :=
  extends_.lookup_eq_some found

theorem extends_record (substitution : Substitution) (old new : SymbolId) :
    (substitution.record old new).Extends substitution :=
  List.prefix_append _ _

theorem get?_record {substitution : Substitution} {old : SymbolId}
    (absent : substitution.get? old = none) (new other : SymbolId) :
    (substitution.record old new).get? other =
      if other = old then some new else substitution.get? other := by
  unfold get? record at *
  rw [List.lookup_append]
  by_cases same : other = old
  · subst same
    simp [absent]
  · simp [same]

/-- The symbols of a list that have no entry yet, each once, where it first occurs. -/
def unsettled (substitution : Substitution) (symbols : List SymbolId) : List SymbolId :=
  (symbols.filter fun symbol => (substitution.get? symbol).isNone).eraseDups

theorem unsettled_cons_of_settled {substitution : Substitution} {old new : SymbolId}
    (found : substitution.get? old = some new) (symbols : List SymbolId) :
    substitution.unsettled (old :: symbols) = substitution.unsettled symbols := by
  unfold unsettled
  rw [List.filter_cons_of_neg (by simp [found])]

theorem unsettled_cons_of_new {substitution : Substitution} {old : SymbolId}
    (absent : substitution.get? old = none) (new : SymbolId) (symbols : List SymbolId) :
    substitution.unsettled (old :: symbols) =
      old :: (substitution.record old new).unsettled symbols := by
  unfold unsettled
  rw [List.filter_cons_of_pos (by simp [absent]), List.eraseDups_cons, List.filter_filter]
  congr 2
  refine List.filter_congr fun other _ => ?_
  rw [get?_record absent]
  by_cases same : other = old
  · simp [same]
  · simp [same]

end Substitution

/-- The symbol that takes the place of `old`. One that is not declared under the roots stays. -/
def Chooser.settle (choose : Chooser σ) (declared : List (SymbolId × DeclId)) (old : SymbolId) :
    Pass (CopyState σ) SymbolId :=
  match declared.lookup old with
  | some decl => choose.ask decl old
  | none => pure old

theorem Chooser.ask_run_eq_ok_iff {choose : Chooser σ} {id : DeclId} {old new : SymbolId}
    {before after : CopyState σ} : (choose.ask id old).run before = .ok new after ↔
      ∃ symbols memory,
        (choose id old).run (before.symbols, before.memory) = .ok new (symbols, memory) ∧
          after = ⟨symbols, memory, (id, old) :: before.asked⟩ := by
  rw [ask, EStateM.run_bind, EStateM.run_modify]
  simp only [Pass.run_within_eq_ok_iff, Prod.exists, eq_comm (a := after)]

/-- The choice is noted down even if the chooser fails. -/
theorem Chooser.ask_run_eq_error_iff {choose : Chooser σ} {id : DeclId} {old : SymbolId}
    {before after : CopyState σ} {error : PassError} :
    (choose.ask id old).run before = .error error after ↔
      ∃ symbols memory,
        (choose id old).run (before.symbols, before.memory) = .error error (symbols, memory) ∧
          after = ⟨symbols, memory, (id, old) :: before.asked⟩ := by
  rw [ask, EStateM.run_bind, EStateM.run_modify]
  simp only [Pass.run_within_eq_error_iff, Prod.exists, eq_comm (a := after)]

def Chooser.entry (choose : Chooser σ) (declared : List (SymbolId × DeclId)) (old : SymbolId) :
    Pass (CopyState σ) (SymbolId × SymbolId) := do
  let new ← choose.settle declared old
  pure (old, new)

theorem Chooser.mapM_entry_cons_run {choose : Chooser σ} {declared : List (SymbolId × DeclId)}
    {old : SymbolId} {symbols : List SymbolId} {entries : List (SymbolId × SymbolId)}
    {before after : CopyState σ}
    (run : ((old :: symbols).mapM (choose.entry declared)).run before = .ok entries after) :
    ∃ new rest middle, (choose.settle declared old).run before = .ok new middle ∧
      (symbols.mapM (choose.entry declared)).run middle = .ok rest after ∧
      entries = (old, new) :: rest := by
  rw [List.mapM_cons] at run
  obtain ⟨entry, middle, first, next⟩ := Pass.run_bind_eq_ok_iff.1 run
  obtain ⟨rest, last, others, listed⟩ := Pass.run_bind_eq_ok_iff.1 next
  obtain ⟨new, state, settled, paired⟩ := Pass.run_bind_eq_ok_iff.1 first
  obtain ⟨rfl, rfl⟩ := EStateM.Result.ok.inj paired
  obtain ⟨rfl, rfl⟩ := EStateM.Result.ok.inj listed
  exact ⟨new, rest, _, settled, others, rfl⟩

theorem Chooser.mapM_entry_cons_error {choose : Chooser σ} {declared : List (SymbolId × DeclId)}
    {old : SymbolId} {symbols : List SymbolId} {before after : CopyState σ} {error : PassError}
    (run : ((old :: symbols).mapM (choose.entry declared)).run before = .error error after) :
    (choose.settle declared old).run before = .error error after ∨
      ∃ new middle, (choose.settle declared old).run before = .ok new middle ∧
        (symbols.mapM (choose.entry declared)).run middle = .error error after := by
  rw [List.mapM_cons, Pass.run_bind_eq_error_iff] at run
  rcases run with first | ⟨entry, middle, first, rest⟩
  · rw [entry, Pass.run_bind_eq_error_iff] at first
    rcases first with settled | ⟨_, _, -, paired⟩
    · exact .inl settled
    · cases paired
  · obtain ⟨new, state, settled, paired⟩ := Pass.run_bind_eq_ok_iff.1 first
    obtain ⟨rfl, rfl⟩ := EStateM.Result.ok.inj paired
    rw [Pass.run_bind_eq_error_iff] at rest
    rcases rest with later | ⟨_, _, -, listed⟩
    · exact .inr ⟨new, _, settled, later⟩
    · cases listed

namespace Copier

variable {copier : Copier σ}

def mention (copier : Copier σ) (symbol : SymbolId) : Pass (Settling σ) Unit := do
  let _ ← copier.mentionedSymbol symbol

theorem mentionedSymbol_of_settled {before : Settling σ} {old new : SymbolId}
    (found : before.settled.get? old = some new) :
    (copier.mentionedSymbol old).run before = .ok new before := by
  rw [mentionedSymbol, EStateM.run_bind, EStateM.run_get]
  simp only [found]
  rfl

/-- A symbol without an entry is settled by the chooser and gets one. -/
theorem mentionedSymbol_of_new (indexed : copier.tree.Indexed copier.declared)
    {before : Settling σ} {old : SymbolId} (absent : before.settled.get? old = none) :
    (copier.mentionedSymbol old).run before =
      match (copier.choose.settle copier.declared old).run before.state with
      | .ok new state => .ok new ⟨state, before.settled.record old new⟩
      | .error error state => .error error ⟨state, before.settled⟩ := by
  rw [mentionedSymbol, EStateM.run_bind, EStateM.run_get]
  simp only [absent, Chooser.settle]
  cases owner : copier.declared.lookup old with
  | none => rfl
  | some id =>
    obtain ⟨-, decl, found, rfl⟩ := (indexed.lookup old id).1 owner
    simp only [ownerSymbol, Pass.decl_eq_pure found, pure_bind, EStateM.run_bind, EStateM.run_get,
      absent, Pass.run_within]
    cases (copier.choose.ask id decl.symbol).run before.state <;> rfl

/-- The symbol that a declaration owns is settled like a mentioned one. -/
theorem ownerSymbol_run (indexed : copier.tree.Indexed copier.declared) {id : DeclId} {decl : Decl}
    (reached : copier.tree.Reachable id) (found : copier.tree.get? id = some decl)
    (before : Settling σ) :
    (copier.ownerSymbol id).run before = (copier.mentionedSymbol decl.symbol).run before := by
  have owner : copier.declared.lookup decl.symbol = some id :=
    (indexed.lookup _ _).2 ⟨reached, decl, found, rfl⟩
  cases settled : before.settled.get? decl.symbol with
  | some new =>
    rw [mentionedSymbol_of_settled settled, ownerSymbol, Pass.decl_eq_pure found, pure_bind]
    simp only [EStateM.run_bind, EStateM.run_get, settled]
    rfl
  | none =>
    rw [mentionedSymbol, EStateM.run_bind, EStateM.run_get]
    simp only [settled, owner]

theorem settled_of_mentionedSymbol (indexed : copier.tree.Indexed copier.declared)
    {before after : Settling σ} {old new : SymbolId}
    (run : (copier.mentionedSymbol old).run before = .ok new after) :
    after.settled.Extends before.settled ∧ after.settled.get? old = some new := by
  cases settled : before.settled.get? old with
  | some earlier =>
    rw [mentionedSymbol_of_settled settled] at run
    injection run with same unchanged
    subst same unchanged
    exact ⟨.refl _, settled⟩
  | none =>
    rw [mentionedSymbol_of_new indexed settled] at run
    split at run
    · injection run with same changed
      subst same changed
      refine ⟨Substitution.extends_record _ _ _, ?_⟩
      rw [Substitution.get?_record settled, if_pos rfl]
    · exact nomatch run

/-- Settling symbols as they are mentioned is settling each that is new, once, in that order. -/
theorem forM_mention_alike (indexed : copier.tree.Indexed copier.declared) (symbols : List SymbolId)
    (before : Settling σ) :
    Pass.Alike
      (fun _ after entries state => after = ⟨state, ⟨before.settled.entries ++ entries⟩⟩)
      (fun after state => after.state = state)
      ((symbols.forM copier.mention).run before)
      (((before.settled.unsettled symbols).mapM (copier.choose.entry copier.declared)).run
        before.state) := by
  rw [List.forM_eq_forM]
  induction symbols generalizing before with
  | nil =>
    refine .ok ?_
    rw [List.reverse_nil, List.append_nil]
  | cons old symbols ih =>
    rw [List.forM_cons]
    cases settled : before.settled.get? old with
    | some new =>
      rw [Substitution.unsettled_cons_of_settled settled, EStateM.run_bind, mention,
        EStateM.run_bind, mentionedSymbol_of_settled settled]
      exact ih before
    | none =>
      rw [EStateM.run_bind, mention, EStateM.run_bind, mentionedSymbol_of_new indexed settled]
      cases chosen : (copier.choose.settle copier.declared old).run before.state with
      | error error state =>
        rw [Substitution.unsettled_cons_of_new settled old, List.mapM_cons, EStateM.run_bind,
          Chooser.entry, EStateM.run_bind, chosen]
        exact .error rfl
      | ok new state =>
        rw [Substitution.unsettled_cons_of_new settled new, List.mapM_cons, EStateM.run_bind,
          Chooser.entry, EStateM.run_bind, chosen]
        have rest := ih ⟨state, before.settled.record old new⟩
        simp only [EStateM.run_pure, EStateM.run_bind]
        generalize EStateM.run (forM symbols copier.mention) _ = settledRest at rest
        generalize EStateM.run (List.mapM _ _) state = listedRest at rest
        cases rest with
        | error related => exact .error related
        | ok related =>
          refine .ok (related.trans ?_)
          simp [Substitution.record]

end Copier

end Relabel
