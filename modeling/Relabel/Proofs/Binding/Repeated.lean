import Relabel.Proofs.Binding

namespace Relabel.DeclTree

variable {tree : DeclTree}

/-- Binding has nothing left to do at a declaration: if its symbol is a placeholder and no class, that
is admitted and bound, to whatever declaration. -/
def Settled (tree : DeclTree) (table : SymbolTable) (id : DeclId) : Prop :=
  ∃ decl symbol, tree.get? id = some decl ∧ table.get? decl.symbol = some symbol ∧
    (symbol.isStandIn = true → decl.form.admits symbol.kind = true ∧ symbol.isBound = true)

section Step

variable {table : SymbolTable} {id : DeclId}

theorem settled_claim_self {decl : Decl} {symbol : Symbol} (found : tree.get? id = some decl)
    (known : table.get? decl.symbol = some symbol)
    (admitted : symbol.isStandIn = true → decl.form.admits symbol.kind = true) (site : DeclSite)
    (span : Span) : tree.Settled (table.claim decl.symbol site span) id := by
  refine ⟨decl, symbol.claimedAt site span, found, ?_, ?_⟩
  · rw [SymbolTable.get?_claim known, if_pos rfl]
  · rw [Symbol.isStandIn_claimedAt, Symbol.kind_claimedAt, Symbol.isBound_claimedAt]
    intro standIn
    exact ⟨admitted standIn, by rw [standIn, Bool.or_true]⟩

/-- What is claimed later leaves bound what is bound. -/
theorem Settled.claim (settled : tree.Settled table id) {claimed : SymbolId} {data : Symbol}
    (here : table.get? claimed = some data) (site : DeclSite) (span : Span) :
    tree.Settled (table.claim claimed site span) id := by
  obtain ⟨decl, symbol, found, known, bound⟩ := settled
  by_cases same : decl.symbol = claimed
  · subst same
    exact settled_claim_self found known (fun standIn => (bound standIn).1) site span
  · exact ⟨decl, symbol, found, by rwa [SymbolTable.get?_claim here, if_neg same], bound⟩

/-- Whether a symbol is a placeholder is the same before and after it is claimed. -/
theorem owns_isStandIn_claim {claimed : SymbolId} {data : Symbol}
    (here : table.get? claimed = some data) (site : DeclSite) (span : Span) :
    tree.owns (table.claim claimed site span) Symbol.isStandIn = tree.owns table Symbol.isStandIn := by
  funext id
  cases found : tree.get? id with
  | none => rw [owns, owns, found, Option.any_none, Option.any_none]
  | some decl =>
    rw [owns, owns, found, Option.any_some, Option.any_some, SymbolTable.get?_claim here]
    split
    · next same => rw [same, here, Option.any_some, Option.any_some, Symbol.isStandIn_claimedAt]
    · rfl

theorem bindOwner_run_of_settled (settled : tree.Settled table id) (stats : BindingStats) :
    (tree.bindOwner id).run (table, stats) = .ok () (table, { stats with
      visited := stats.visited + 1
      alreadyBound := stats.alreadyBound + (tree.owns table Symbol.isStandIn id).toNat }) := by
  obtain ⟨decl, symbol, found, known, bound⟩ := settled
  refine bindOwner_run_eq_ok_iff.2
    ⟨decl, symbol, found, known, fun standIn => (bound standIn).1, ?_, ?_⟩
  · refine (SymbolTable.claim_of_fixed known ?_).symm
    cases standIn : symbol.isStandIn with
    | false => exact Symbol.claimedAt_of_not_isStandIn standIn _ _
    | true => rw [Symbol.claimedAt_of_isStandIn standIn, if_pos (bound standIn).2]
  · rw [owns_of_get? found known, BindingStats.counting]
    cases standIn : symbol.isStandIn with
    | false => rfl
    | true => rw [(bound standIn).2]; rfl

end Step

section Run

variable {ids : List DeclId} {before after : SymbolTable} {stats last : BindingStats}

theorem Settled.forM {id : DeclId} (settled : tree.Settled before id)
    (run : (ids.forM tree.bindOwner).run (before, stats) = .ok () (after, last)) :
    tree.Settled after id := by
  refine holds_of_forM_bindOwner (tree.Settled · id) ?_ run settled
  intro table claimed symbol site span known here
  exact here.claim known site span

/-- Binding leaves all that it visits settled, also what it visits more than once. -/
theorem settled_of_forM_bindOwner
    (run : (ids.forM tree.bindOwner).run (before, stats) = .ok () (after, last)) :
    ∀ id ∈ ids, tree.Settled after id := by
  induction ids generalizing before stats with
  | nil => exact fun _ inside => nomatch inside
  | cons id ids ih =>
    obtain ⟨decl, symbol, found, known, admitted, rest⟩ := forM_bindOwner_cons_run_eq_ok_iff.1 run
    have here := settled_claim_self found known admitted ⟨tree.id, id⟩ decl.span
    exact List.forall_mem_cons.2 ⟨here.forM rest, ih rest⟩

theorem owns_isStandIn_of_forM_bindOwner
    (run : (ids.forM tree.bindOwner).run (before, stats) = .ok () (after, last)) :
    tree.owns after Symbol.isStandIn = tree.owns before Symbol.isStandIn := by
  refine holds_of_forM_bindOwner
    (fun table => tree.owns table Symbol.isStandIn = tree.owns before Symbol.isStandIn) ?_ run rfl
  intro table id symbol site span known same
  rw [owns_isStandIn_claim known, same]

/-- Each visit counts, and each one to a placeholder counts once more, whether that is bound already or
not. -/
theorem counts_of_forM_bindOwner
    (run : (ids.forM tree.bindOwner).run (before, stats) = .ok () (after, last)) :
    last.visited = stats.visited + ids.length ∧
      last.bound + last.alreadyBound =
        stats.bound + stats.alreadyBound + ids.countP (tree.owns before Symbol.isStandIn) := by
  induction ids generalizing before stats with
  | nil =>
    cases run
    exact ⟨rfl, rfl⟩
  | cons id ids ih =>
    obtain ⟨decl, symbol, found, known, -, rest⟩ := forM_bindOwner_cons_run_eq_ok_iff.1 run
    obtain ⟨visited, sum⟩ := ih rest
    rw [owns_isStandIn_claim known] at sum
    have once : (symbol.isStandIn && !symbol.isBound).toNat +
        (symbol.isStandIn && symbol.isBound).toNat = symbol.isStandIn.toNat := by
      cases symbol.isStandIn <;> cases symbol.isBound <;> rfl
    rw [visited, sum, countP_cons_toNat, owns_of_get? found known]
    simp only [BindingStats.counting, List.length_cons]
    omega

/-- Over what is settled, binding changes nothing but its counts. -/
theorem forM_bindOwner_run_of_settled (settled : ∀ id ∈ ids, tree.Settled after id) :
    (ids.forM tree.bindOwner).run (after, stats) = .ok () (after, { stats with
      visited := stats.visited + ids.length
      alreadyBound := stats.alreadyBound + ids.countP (tree.owns after Symbol.isStandIn) }) := by
  rw [List.forM_eq_forM]
  induction ids generalizing stats with
  | nil => rfl
  | cons id ids ih =>
    obtain ⟨here, rest⟩ := List.forall_mem_cons.1 settled
    rw [List.forM_cons, EStateM.run_bind, bindOwner_run_of_settled here]
    simp only [ih rest, List.length_cons, countP_cons_toNat]
    rw [Nat.add_right_comm, Nat.add_assoc, Nat.add_assoc]

end Run

/-- Binding the placeholders of a tree once more finds all of them bound and changes nothing, also
where a declaration is met on several paths or several own one placeholder. -/
theorem bindPlaceholders_again (tree : DeclTree) (before after : SymbolTable) (stats : BindingStats)
    (run : tree.bindPlaceholders.run before = .ok stats after) :
    tree.bindPlaceholders.run after = .ok
      { visited := stats.visited, bound := 0, alreadyBound := stats.bound + stats.alreadyBound }
      after := by
  obtain ⟨fits, bound⟩ := bindPlaceholders_run_eq_ok_iff.1 run
  have same := owns_isStandIn_of_forM_bindOwner bound
  obtain ⟨visited, sum⟩ := counts_of_forM_bindOwner bound
  simp only [Nat.zero_add] at visited sum
  refine bindPlaceholders_run_eq_ok_iff.2 ⟨fits, ?_⟩
  rw [forM_bindOwner_run_of_settled (settled_of_forM_bindOwner bound), same, visited, sum]
  simp only [Nat.zero_add]

/-- A class that lists one method twice, with two parameters that own one symbol. -/
def shared : DeclTree where
  id := ⟨0⟩
  roots := [⟨3⟩]
  decls := #[
    { symbol := ⟨0⟩, form := .required ⟨1⟩ (.ofName ⟨2⟩), span := ⟨1, 2⟩ },
    { symbol := ⟨0⟩, form := .required ⟨3⟩ (.ofName ⟨2⟩), span := ⟨3, 4⟩ },
    { symbol := ⟨1⟩, form := .signature ⟨4⟩ [⟨0⟩, ⟨1⟩] none, span := ⟨0, 5⟩ },
    { symbol := ⟨2⟩, form := .cls ⟨5⟩ [] none [⟨2⟩, ⟨2⟩], span := ⟨0, 9⟩ }]

def sharedSymbols : SymbolTable where
  symbols := #[
    { kind := .valueParam, origin := .placeholder, source := none },
    { kind := .function .plain, origin := .placeholder, source := none },
    { kind := .cls, origin := .declared, source := none }]

theorem bindPlaceholders_again_shared : ∃ after,
    shared.bindPlaceholders.run sharedSymbols =
        .ok { visited := 7, bound := 2, alreadyBound := 4 } after ∧
      shared.bindPlaceholders.run after =
        .ok { visited := 7, bound := 0, alreadyBound := 6 } after := by
  have done : ∃ after, shared.bindPlaceholders.run sharedSymbols =
      .ok { visited := 7, bound := 2, alreadyBound := 4 } after := ⟨_, rfl⟩
  obtain ⟨after, run⟩ := done
  exact ⟨after, run, bindPlaceholders_again shared sharedSymbols after _ run⟩

end Relabel.DeclTree
