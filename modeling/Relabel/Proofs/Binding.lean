import Relabel.Binding
import Relabel.Proofs.Symbol.Claiming
import Relabel.Proofs.Tree.Owners

namespace Relabel

/-- The counts after one more visit, at a declaration that owns this symbol. -/
def BindingStats.counting (stats : BindingStats) (symbol : Symbol) : BindingStats where
  visited := stats.visited + 1
  bound := stats.bound + (symbol.isStandIn && !symbol.isBound).toNat
  alreadyBound := stats.alreadyBound + (symbol.isStandIn && symbol.isBound).toNat

namespace DeclTree

variable {tree : DeclTree}

/-- Binding one declaration refuses a placeholder of the wrong kind. Else the declaration claims its
symbol. -/
theorem bindOwner_run {id : DeclId} {decl : Decl} {before : SymbolTable} {symbol : Symbol}
    (found : tree.get? id = some decl) (known : before.get? decl.symbol = some symbol)
    (stats : BindingStats) : (tree.bindOwner id).run (before, stats) =
      if symbol.isStandIn = true ∧ decl.form.admits symbol.kind = false then
        .error (.misplaced decl.symbol id symbol.kind decl.form.sort) (before, stats)
      else
        .ok () (before.claim decl.symbol ⟨tree.id, id⟩ decl.span, stats.counting symbol) := by
  have runSymbol (state : SymbolTable × BindingStats) :
      (Pass.symbol before decl.symbol).run state = .ok symbol state :=
    Pass.run_symbol_eq_ok_iff.2 ⟨known, rfl⟩
  rw [bindOwner, Pass.decl_eq_pure found, pure_bind]
  simp only [EStateM.run_bind, EStateM.run_get, runSymbol]
  change EStateM.run (if symbol.isStandIn = true then _ else _) _ = _
  cases standIn : symbol.isStandIn with
  | false =>
    have same : before.claim decl.symbol ⟨tree.id, id⟩ decl.span = before :=
      SymbolTable.claim_of_fixed known (Symbol.claimedAt_of_not_isStandIn standIn _ _)
    have counted : stats.counting symbol = { stats with visited := stats.visited + 1 } := by
      simp [BindingStats.counting, standIn]
    simp only [Bool.false_eq_true, if_false, false_and, same, counted]
    rfl
  | true =>
    cases admits : decl.form.admits symbol.kind with
    | false => rfl
    | true =>
      simp only [if_true, Bool.true_eq_false, and_false, if_false,
        SymbolTable.bind_of_isStandIn known standIn]
      cases bound : symbol.isBound <;>
        simp [BindingStats.counting, BindingStats.count, standIn, bound] <;> rfl

/-- Binding one declaration fails and changes nothing, or the declaration claims its symbol. -/
theorem bindOwner_run_cases (tree : DeclTree) (id : DeclId) (before : SymbolTable)
    (stats : BindingStats) :
    (∃ error, (tree.bindOwner id).run (before, stats) = .error error (before, stats)) ∨
      ∃ decl symbol, tree.get? id = some decl ∧ before.get? decl.symbol = some symbol ∧
        (symbol.isStandIn = true → decl.form.admits symbol.kind = true) ∧
        (tree.bindOwner id).run (before, stats) =
          .ok () (before.claim decl.symbol ⟨tree.id, id⟩ decl.span, stats.counting symbol) := by
  cases found : tree.get? id with
  | none =>
    left
    simp only [bindOwner, EStateM.run_bind, Pass.decl, DeclTree.get, found]
    exact ⟨_, rfl⟩
  | some decl =>
    cases known : before.get? decl.symbol with
    | none =>
      left
      simp only [bindOwner, EStateM.run_bind, Pass.decl, DeclTree.get, found]
      change ∃ error, EStateM.run (Pass.symbol before decl.symbol >>= _) (before, stats) = _
      simp only [Pass.symbol, SymbolTable.get, known]
      exact ⟨_, rfl⟩
    | some symbol =>
      rw [bindOwner_run found known]
      split
      · exact .inl ⟨_, rfl⟩
      · next fits => exact .inr ⟨decl, symbol, rfl, known, by simpa using fits, rfl⟩

theorem bindOwner_run_eq_ok_iff {id : DeclId} {before after : SymbolTable}
    {stats last : BindingStats} : (tree.bindOwner id).run (before, stats) = .ok () (after, last) ↔
      ∃ decl symbol, tree.get? id = some decl ∧ before.get? decl.symbol = some symbol ∧
        (symbol.isStandIn = true → decl.form.admits symbol.kind = true) ∧
        after = before.claim decl.symbol ⟨tree.id, id⟩ decl.span ∧ last = stats.counting symbol := by
  constructor
  · intro run
    rcases tree.bindOwner_run_cases id before stats with
      ⟨error, failed⟩ | ⟨decl, symbol, found, known, fits, done⟩
    · rw [failed] at run
      exact nomatch run
    · rw [done] at run
      cases run
      exact ⟨decl, symbol, found, known, fits, rfl, rfl⟩
  · intro done
    obtain ⟨decl, symbol, found, known, fits, rfl, rfl⟩ := done
    have fine : ¬(symbol.isStandIn = true ∧ decl.form.admits symbol.kind = false) := by
      intro wrong
      have admits := fits wrong.1
      rw [wrong.2] at admits
      exact nomatch admits
    rw [bindOwner_run found known, if_neg fine]

theorem forM_bindOwner_cons_run_eq_ok_iff {id : DeclId} {ids : List DeclId}
    {before after : SymbolTable} {stats last : BindingStats} :
    ((id :: ids).forM tree.bindOwner).run (before, stats) = .ok () (after, last) ↔
      ∃ decl symbol, tree.get? id = some decl ∧ before.get? decl.symbol = some symbol ∧
        (symbol.isStandIn = true → decl.form.admits symbol.kind = true) ∧
        (ids.forM tree.bindOwner).run (before.claim decl.symbol ⟨tree.id, id⟩ decl.span,
          stats.counting symbol) = .ok () (after, last) := by
  rw [List.forM_eq_forM, List.forM_cons, Pass.run_bind_eq_ok_iff]
  constructor
  · rintro ⟨⟨⟩, ⟨middle, counted⟩, first, rest⟩
    obtain ⟨decl, symbol, found, known, admitted, rfl, rfl⟩ := bindOwner_run_eq_ok_iff.1 first
    exact ⟨decl, symbol, found, known, admitted, rest⟩
  · rintro ⟨decl, symbol, found, known, admitted, rest⟩
    exact ⟨(), _,
      bindOwner_run_eq_ok_iff.2 ⟨decl, symbol, found, known, admitted, rfl, rfl⟩, rest⟩

/-- Binding does nothing to the table but claim known symbols in it, so what no claim breaks still
holds when it is done. -/
theorem holds_of_forM_bindOwner (holds : SymbolTable → Prop)
    (claim : ∀ table id symbol site span, table.get? id = some symbol → holds table →
      holds (table.claim id site span))
    {ids : List DeclId} {before after : SymbolTable} {stats last : BindingStats}
    (run : (ids.forM tree.bindOwner).run (before, stats) = .ok () (after, last))
    (start : holds before) : holds after := by
  induction ids generalizing before stats with
  | nil =>
    cases run
    exact start
  | cons id ids ih =>
    obtain ⟨decl, symbol, -, known, -, rest⟩ := forM_bindOwner_cons_run_eq_ok_iff.1 run
    exact ih rest (claim before decl.symbol symbol ⟨tree.id, id⟩ decl.span known start)

/-- Binding can deal with a declaration: it is in the tree, its symbol is known, and a placeholder
is admitted by its form. -/
def Bindable (tree : DeclTree) (table : SymbolTable) (id : DeclId) : Prop :=
  ∃ decl symbol, tree.get? id = some decl ∧ table.get? decl.symbol = some symbol ∧
    (symbol.isStandIn = true → decl.form.admits symbol.kind = true)

/-- A symbol is of the same kind and origin after it has been claimed. -/
theorem bindable_claim_iff {table : SymbolTable} {claimed : SymbolId} {data : Symbol}
    (here : table.get? claimed = some data) (site : DeclSite) (span : Span) (id : DeclId) :
    tree.Bindable (table.claim claimed site span) id ↔ tree.Bindable table id := by
  refine exists_congr fun decl => ?_
  by_cases same : decl.symbol = claimed
  · subst same
    simp [SymbolTable.get?_claim here, here, Symbol.isStandIn_claimedAt, Symbol.kind_claimedAt]
  · simp [SymbolTable.get?_claim here, same]

/-- Binding the listed declarations succeeds iff it can deal with each of them on the table at the
start. -/
theorem exists_forM_bindOwner_run_iff {ids : List DeclId} {before : SymbolTable}
    {stats : BindingStats} :
    (∃ after last, (ids.forM tree.bindOwner).run (before, stats) = .ok () (after, last)) ↔
      ∀ id ∈ ids, tree.Bindable before id := by
  induction ids generalizing before stats with
  | nil => exact ⟨(fun _ _ inside => nomatch inside), fun _ => ⟨before, stats, rfl⟩⟩
  | cons id ids ih =>
    rw [List.forall_mem_cons]
    constructor
    · intro done
      obtain ⟨after, last, run⟩ := done
      obtain ⟨decl, symbol, found, known, admitted, rest⟩ :=
        forM_bindOwner_cons_run_eq_ok_iff.1 run
      have others := ih.1 ⟨after, last, rest⟩
      refine ⟨⟨decl, symbol, found, known, admitted⟩, fun other inside => ?_⟩
      exact (bindable_claim_iff known _ _ other).1 (others other inside)
    · intro both
      obtain ⟨⟨decl, symbol, found, known, admitted⟩, others⟩ := both
      obtain ⟨after, last, rest⟩ := ih.2 fun other inside =>
        (bindable_claim_iff known ⟨tree.id, id⟩ decl.span other).2 (others other inside)
      exact ⟨after, last,
        forM_bindOwner_cons_run_eq_ok_iff.2 ⟨decl, symbol, found, known, admitted, rest⟩⟩

/-- What binding the listed declarations does: each claims its symbol, and no other one changes. -/
structure Claimed (tree : DeclTree) (ids : List DeclId) (before after : SymbolTable) : Prop where
  owned : ∀ id ∈ ids, ∃ decl symbol, tree.get? id = some decl ∧
    before.get? decl.symbol = some symbol ∧
    after.get? decl.symbol = some (symbol.claimedAt ⟨tree.id, id⟩ decl.span)
  others : ∀ other, (∀ id ∈ ids, ∀ decl, tree.get? id = some decl → decl.symbol ≠ other) →
    after.get? other = before.get? other

theorem Claimed.get?_eq {ids : List DeclId} {before after : SymbolTable}
    (claimed : tree.Claimed ids before after) {id : DeclId} {decl : Decl} {symbol : Symbol}
    (inside : id ∈ ids) (found : tree.get? id = some decl)
    (known : before.get? decl.symbol = some symbol) :
    after.get? decl.symbol = some (symbol.claimedAt ⟨tree.id, id⟩ decl.span) := by
  obtain ⟨decl', symbol', found', known', knownAfter⟩ := claimed.owned id inside
  obtain rfl := Option.some.inj (found.symm.trans found')
  obtain rfl := Option.some.inj (known.symm.trans known')
  exact knownAfter

/-- The listed declarations own different symbols. -/
def OwnsApart (tree : DeclTree) (ids : List DeclId) : Prop :=
  ∀ first ∈ ids, ∀ second ∈ ids, ∀ decl other, tree.get? first = some decl →
    tree.get? second = some other → decl.symbol = other.symbol → first = second

theorem nodup_owned {ids : List DeclId} (nodup : ids.Nodup) (apart : tree.OwnsApart ids) :
    ((tree.owned ids).map Prod.fst).Nodup := by
  induction ids with
  | nil => exact List.nodup_nil
  | cons id ids ih =>
    rw [List.nodup_cons] at nodup
    have rest := ih nodup.2 fun one inside two insideTwo =>
      apart one (List.mem_cons_of_mem id inside) two (List.mem_cons_of_mem id insideTwo)
    cases found : tree.get? id with
    | none =>
      have same : tree.owned (id :: ids) = tree.owned ids := by simp [owned, found]
      rwa [same]
    | some decl =>
      rw [owned_cons found, List.map_cons, List.nodup_cons]
      refine ⟨fun again => ?_, rest⟩
      obtain ⟨⟨symbol, other⟩, inside, same⟩ := List.mem_map.1 again
      obtain ⟨listed, around, foundOther, rfl⟩ := mem_owned_iff.1 inside
      have twice := apart other (List.mem_cons_of_mem id listed) id List.mem_cons_self around decl
        foundOther found same
      exact nodup.1 (twice ▸ listed)

theorem forM_bindOwner_run_ok {ids : List DeclId} (apart : tree.OwnsApart ids)
    {before after : SymbolTable} {stats last : BindingStats}
    (run : (ids.forM tree.bindOwner).run (before, stats) = .ok () (after, last)) :
    tree.Claimed ids before after := by
  induction ids generalizing before stats with
  | nil =>
    cases run
    exact ⟨(fun _ inside => nomatch inside), fun _ _ => rfl⟩
  | cons id ids ih =>
    obtain ⟨decl, symbol, found, known, -, rest⟩ := forM_bindOwner_cons_run_eq_ok_iff.1 run
    have changed := SymbolTable.get?_claim known ⟨tree.id, id⟩ decl.span
    have apartRest : tree.OwnsApart ids := fun one inside two insideTwo =>
      apart one (List.mem_cons_of_mem id inside) two (List.mem_cons_of_mem id insideTwo)
    have claimed := ih apartRest rest
    have claimedHere := changed decl.symbol
    rw [if_pos rfl] at claimedHere
    refine ⟨fun one inside => ?_, fun other unowned => ?_⟩
    · by_cases same : one = id
      · subst same
        refine ⟨decl, symbol, found, known, ?_⟩
        by_cases again : one ∈ ids
        -- A declaration that is met again finds its symbol bound.
        · rw [claimed.get?_eq again found claimedHere, Symbol.claimedAt_claimedAt]
        · rw [claimed.others decl.symbol, claimedHere]
          intro two insideTwo other foundTwo sameSymbol
          have repeated := apart two (List.mem_cons_of_mem _ insideTwo) one List.mem_cons_self other
            decl foundTwo found sameSymbol
          exact again (repeated ▸ insideTwo)
      · have insideRest := (List.mem_cons.1 inside).resolve_left same
        obtain ⟨other, data, foundOne, knownLater, claimedLater⟩ := claimed.owned one insideRest
        refine ⟨other, data, foundOne, ?_, claimedLater⟩
        have differs : other.symbol ≠ decl.symbol := fun sameSymbol =>
          same (apart one inside id List.mem_cons_self other decl foundOne found sameSymbol)
        rwa [changed, if_neg differs] at knownLater
    · have differs : other ≠ decl.symbol := fun same =>
        unowned id List.mem_cons_self decl found same.symm
      rw [claimed.others other fun one inside => unowned one (List.mem_cons_of_mem id inside), changed,
        if_neg differs]

section Counting

/-- Whether the symbol that a declaration owns passes a test. -/
def owns (tree : DeclTree) (table : SymbolTable) (test : Symbol → Bool) (id : DeclId) : Bool :=
  (tree.get? id).any fun decl => (table.get? decl.symbol).any test

theorem owns_of_get? {table : SymbolTable} {id : DeclId} {decl : Decl} {symbol : Symbol}
    (found : tree.get? id = some decl) (known : table.get? decl.symbol = some symbol)
    (test : Symbol → Bool) : tree.owns table test id = test symbol := by
  rw [owns, found, Option.any_some, known, Option.any_some]

/-- The counts for the listed declarations, each with a symbol of its own. -/
def tally (tree : DeclTree) (table : SymbolTable) (ids : List DeclId) : BindingStats where
  visited := ids.length
  bound := ids.countP (tree.owns table fun symbol => symbol.isStandIn && !symbol.isBound)
  alreadyBound := ids.countP (tree.owns table fun symbol => symbol.isStandIn && symbol.isBound)

theorem countP_cons_toNat {α : Type} (test : α → Bool) (a : α) (list : List α) :
    (a :: list).countP test = (test a).toNat + list.countP test := by
  rw [List.countP_cons, Nat.add_comm]
  cases test a <;> rfl

private theorem tally_cons {before middle : SymbolTable} {id : DeclId} {ids : List DeclId}
    {symbol : Symbol} (test : Symbol → Bool) (here : tree.owns before test id = test symbol)
    (same : ∀ other ∈ ids, tree.owns middle test other = tree.owns before test other) :
    (test symbol).toNat + ids.countP (tree.owns middle test) =
      (id :: ids).countP (tree.owns before test) := by
  have rest : ids.countP (tree.owns middle test) = ids.countP (tree.owns before test) :=
    List.countP_congr fun other inside => by rw [same other inside]
  rw [rest, countP_cons_toNat, here]

theorem stats_of_forM_bindOwner {ids : List DeclId} (nodup : ids.Nodup)
    (apart : tree.OwnsApart ids) {before after : SymbolTable} {stats last : BindingStats}
    (run : (ids.forM tree.bindOwner).run (before, stats) = .ok () (after, last)) :
    last.visited = stats.visited + (tree.tally before ids).visited ∧
      last.bound = stats.bound + (tree.tally before ids).bound ∧
      last.alreadyBound = stats.alreadyBound + (tree.tally before ids).alreadyBound := by
  induction ids generalizing before stats with
  | nil =>
    cases run
    exact ⟨rfl, rfl, rfl⟩
  | cons id ids ih =>
    obtain ⟨decl, symbol, found, known, -, rest⟩ := forM_bindOwner_cons_run_eq_ok_iff.1 run
    rw [List.nodup_cons] at nodup
    have apartRest : tree.OwnsApart ids := fun one inside two insideTwo =>
      apart one (List.mem_cons_of_mem id inside) two (List.mem_cons_of_mem id insideTwo)
    -- The claimed symbol is owned by none of the others, so they are counted as before.
    have same (test : Symbol → Bool) (other : DeclId) (inside : other ∈ ids) :
        tree.owns (before.claim decl.symbol ⟨tree.id, id⟩ decl.span) test other =
          tree.owns before test other := by
      cases foundOther : tree.get? other with
      | none => rw [owns, owns, foundOther, Option.any_none, Option.any_none]
      | some around =>
        have differs : around.symbol ≠ decl.symbol := by
          intro sameSymbol
          have again := apart other (List.mem_cons_of_mem id inside) id List.mem_cons_self around decl
            foundOther found sameSymbol
          exact nodup.1 (again ▸ inside)
        rw [owns, owns, foundOther, Option.any_some, Option.any_some,
          SymbolTable.get?_claim known, if_neg differs]
    have counts (test : Symbol → Bool) :=
      tally_cons test (owns_of_get? found known test) (same test)
    obtain ⟨visited, bound, alreadyBound⟩ := ih nodup.2 apartRest rest
    refine ⟨?_, ?_, ?_⟩
    · rw [visited]
      simp only [BindingStats.counting, tally, List.length_cons]
      omega
    · rw [bound, tally, tally]
      simp only [BindingStats.counting]
      rw [Nat.add_assoc, counts fun symbol => symbol.isStandIn && !symbol.isBound]
    · rw [alreadyBound, tally, tally]
      simp only [BindingStats.counting]
      rw [Nat.add_assoc, counts fun symbol => symbol.isStandIn && symbol.isBound]

end Counting

theorem bindPlaceholders_run_eq_ok_iff {before after : SymbolTable} {stats : BindingStats} :
    tree.bindPlaceholders.run before = .ok stats after ↔
      (∀ root ∈ tree.roots, tree.Fits tree.maxDepth root) ∧
        (tree.preorder.forM tree.bindOwner).run (before, {}) = .ok () (after, stats) := by
  rw [← walkAll_run_eq_ok_iff]
  simp only [bindPlaceholders, EStateM.run]
  cases tree.walkAll tree.bindOwner (before, {}) with
  | ok _ state => simp [Prod.ext_iff, and_comm]
  | error error state => simp

/-- Binding the placeholders of a tree succeeds iff it can deal with all that a walk meets. -/
theorem exists_bindPlaceholders_run_iff {before : SymbolTable} :
    (∃ stats after, tree.bindPlaceholders.run before = .ok stats after) ↔
      (∀ root ∈ tree.roots, tree.Fits tree.maxDepth root) ∧
        ∀ id ∈ tree.preorder, tree.Bindable before id := by
  simp only [bindPlaceholders_run_eq_ok_iff, exists_and_left]
  rw [exists_comm, exists_forM_bindOwner_run_iff]

section Apart

variable (apart : tree.OwnsApart tree.preorder) {before after : SymbolTable} {stats : BindingStats}
  (run : tree.bindPlaceholders.run before = .ok stats after)

include apart run

/-- Binding the placeholders of a tree whose declarations own different symbols. -/
theorem claimed_of_bindPlaceholders : (∀ root ∈ tree.roots, tree.Fits tree.maxDepth root) ∧
    tree.Claimed tree.preorder before after := by
  obtain ⟨fits, bound⟩ := bindPlaceholders_run_eq_ok_iff.1 run
  exact ⟨fits, forM_bindOwner_run_ok apart bound⟩

theorem stats_of_bindPlaceholders (nodup : tree.preorder.Nodup) :
    stats = tree.tally before tree.preorder := by
  obtain ⟨-, bound⟩ := bindPlaceholders_run_eq_ok_iff.1 run
  obtain ⟨visited, newly, already⟩ := stats_of_forM_bindOwner nodup apart bound
  cases stats
  simp only [Nat.zero_add] at visited newly already
  rw [visited, newly, already]

end Apart

section Checking

theorem checkOwner_run {table : SymbolTable} {id : DeclId} {decl : Decl} {symbol : Symbol}
    (found : tree.get? id = some decl) (known : table.get? decl.symbol = some symbol) (before : Unit) :
    (tree.checkOwner table id).run before =
      if symbol.isBound then .ok () before
      else .error (.neverBound decl.symbol id symbol.kind) before := by
  have runSymbol : (Pass.symbol table decl.symbol).run before = .ok symbol before :=
    Pass.run_symbol_eq_ok_iff.2 ⟨known, rfl⟩
  rw [checkOwner, Pass.decl_eq_pure found, pure_bind]
  simp only [EStateM.run_bind, runSymbol]
  cases symbol.isBound <;> rfl

variable (fits : ∀ root ∈ tree.roots, tree.Fits tree.maxDepth root) {table : SymbolTable}
  (known : ∀ id ∈ tree.preorder, ∃ decl symbol, tree.get? id = some decl ∧
    table.get? decl.symbol = some symbol)

include fits known

/-- The check passes, or it fails at a declaration whose symbol is not bound. -/
theorem checkBound_of_fits :
    (tree.checkBound table = .ok () ∧
      ∀ id ∈ tree.preorder, tree.owns table Symbol.isBound id = true) ∨
    ∃ id ∈ tree.preorder, ∃ decl symbol, tree.get? id = some decl ∧
      table.get? decl.symbol = some symbol ∧ symbol.isBound = false ∧
      tree.checkBound table = .error (.neverBound decl.symbol id symbol.kind) := by
  rw [checkBound, walkAll_of_fits fits, List.forM_eq_forM]
  generalize tree.preorder = ids at known
  induction ids with
  | nil => exact .inl ⟨rfl, fun _ inside => nomatch inside⟩
  | cons id ids ih =>
    obtain ⟨decl, symbol, found, here⟩ := known id List.mem_cons_self
    have rest := ih fun other inside => known other (List.mem_cons_of_mem id inside)
    have step : ((id :: ids).forM (tree.checkOwner table)).toResult =
        if symbol.isBound then (ids.forM (tree.checkOwner table)).toResult
        else .error (.neverBound decl.symbol id symbol.kind) := by
      rw [List.forM_eq_forM, List.forM_cons, Pass.toResult, EStateM.run_bind,
        checkOwner_run found here]
      cases symbol.isBound <;> rfl
    rw [List.forM_eq_forM] at step
    rw [step]
    cases bound : symbol.isBound with
    | false => exact .inr ⟨id, List.mem_cons_self, decl, symbol, found, here, bound, rfl⟩
    | true =>
      rcases rest with ⟨done, others⟩ | ⟨other, inside, failed⟩
      · refine .inl ⟨done, List.forall_mem_cons.2 ⟨?_, others⟩⟩
        rw [owns_of_get? found here, bound]
      · exact .inr ⟨other, List.mem_cons_of_mem id inside, failed⟩

theorem checkBound_eq_ok_iff : tree.checkBound table = .ok () ↔
    ∀ id ∈ tree.preorder, tree.owns table Symbol.isBound id = true := by
  rcases checkBound_of_fits fits known with
    ⟨done, bound⟩ | ⟨id, inside, decl, symbol, found, here, unbound, failed⟩
  · exact iff_of_true done bound
  · rw [failed]
    refine iff_of_false (fun done => nomatch done) fun bound => ?_
    have wrong := bound id inside
    rw [owns_of_get? found here, unbound] at wrong
    exact nomatch wrong

/-- What the check fails with is a symbol that is not bound. -/
theorem exists_neverBound_of_checkBound {error : PassError}
    (failed : tree.checkBound table = .error error) :
    ∃ id ∈ tree.preorder, ∃ decl symbol, tree.get? id = some decl ∧
      table.get? decl.symbol = some symbol ∧ symbol.isBound = false ∧
      error = .neverBound decl.symbol id symbol.kind := by
  rcases checkBound_of_fits fits known with
    ⟨done, -⟩ | ⟨id, inside, decl, symbol, found, here, unbound, same⟩
  · rw [done] at failed
    exact nomatch failed
  · rw [same] at failed
    exact ⟨id, inside, decl, symbol, found, here, unbound, (Except.error.inj failed).symm⟩

end Checking

end DeclTree

end Relabel
