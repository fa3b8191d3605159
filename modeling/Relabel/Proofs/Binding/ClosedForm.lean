import Mathlib.Data.Set.Card
import Relabel.Proofs.Binding.Repeated
import Relabel.Proofs.Copy.Isomorphism
import Relabel.Proofs.Symbol.Requests
import Relabel.Proofs.Tree.Reordered
import Relabel.Proofs.Tree.Tidy

namespace Relabel

theorem SymbolTable.ext_get? {first second : SymbolTable}
    (same : ∀ id, first.get? id = second.get? id) (trees : first.nextTree = second.nextTree) :
    first = second := by
  have symbols : first.symbols = second.symbols := Array.ext_getElem? fun index => same ⟨index⟩
  cases first
  cases second
  simp only at symbols trees
  rw [symbols, trees]

namespace DeclTree

variable {tree : DeclTree}

section Success

/-- All that is under the roots is in the tree, the symbols that it owns are known, and the placeholders
among these, classes apart, are admitted by the forms of their declarations. -/
structure AllBindable (tree : DeclTree) (table : SymbolTable) : Prop where
  closed : tree.Closed
  known : ∀ id decl, tree.Reachable id → tree.get? id = some decl →
    ∃ symbol, table.get? decl.symbol = some symbol
  admitted : ∀ id decl symbol, tree.Reachable id → tree.get? id = some decl →
    table.get? decl.symbol = some symbol → symbol.isPlaceholder = true → symbol.kind ≠ .cls →
    decl.form.admits symbol.kind = true

theorem allBindable_iff {table : SymbolTable} :
    tree.AllBindable table ↔ ∀ id, tree.Reachable id → tree.Bindable table id := by
  constructor
  · intro all id reached
    obtain ⟨decl, found⟩ := all.closed id reached
    obtain ⟨symbol, known⟩ := all.known id decl reached found
    refine ⟨decl, symbol, found, known, fun standIn => ?_⟩
    obtain ⟨placeholder, noClass⟩ := Symbol.isStandIn_eq_true_iff.1 standIn
    exact all.admitted id decl symbol reached found known placeholder noClass
  · intro each
    constructor
    · intro id reached
      obtain ⟨decl, -, found, -⟩ := each id reached
      exact ⟨decl, found⟩
    · intro id decl reached found
      obtain ⟨same, symbol, foundSame, known, -⟩ := each id reached
      obtain rfl := Option.some.inj (found.symm.trans foundSame)
      exact ⟨symbol, known⟩
    · intro id decl symbol reached found known placeholder noClass
      obtain ⟨same, data, foundSame, knownSame, admitted⟩ := each id reached
      obtain rfl := Option.some.inj (found.symm.trans foundSame)
      obtain rfl := Option.some.inj (known.symm.trans knownSame)
      exact admitted (Symbol.isStandIn_eq_true_iff.2 ⟨placeholder, noClass⟩)

theorem exists_bindPlaceholders_run_iff_allBindable (tidy : tree.Tidy) {before : SymbolTable} :
    (∃ stats after, tree.bindPlaceholders.run before = .ok stats after) ↔
      tree.AllBindable before := by
  rw [exists_bindPlaceholders_run_iff, allBindable_iff]
  constructor
  · rintro ⟨fits, each⟩ id reached
    exact each id ((mem_preorder_iff fits).2 reached)
  · intro each
    have closed := (allBindable_iff.2 each).closed
    exact ⟨tidy.fits closed, fun id inside => each id (reachable_of_mem_preorder inside)⟩

end Success

section Counts

/-- The symbols that are owned under the roots and are placeholders, bound or not; classes apart. -/
def standIns (tree : DeclTree) (table : SymbolTable) (bound : Bool) : Set SymbolId :=
  {owned | ∃ id decl symbol, tree.Reachable id ∧ tree.get? id = some decl ∧ decl.symbol = owned ∧
    table.get? owned = some symbol ∧ symbol.isPlaceholder = true ∧ symbol.kind ≠ .cls ∧
    symbol.isBound = bound}

theorem ncard_of_nodup {α : Type} [DecidableEq α] {set : Set α} {list : List α}
    (nodup : list.Nodup) (mem : ∀ a, a ∈ set ↔ a ∈ list) : set.ncard = list.length := by
  have same : set = list.toFinset := Set.ext fun a => by simp [mem]
  rw [same, Set.ncard_coe_finset, List.toFinset_card_of_nodup nodup]

variable {table : SymbolTable}

theorem mem_standIns_iff {bound : Bool} {id : DeclId} {decl : Decl} {symbol : Symbol}
    (reached : tree.Reachable id) (found : tree.get? id = some decl)
    (known : table.get? decl.symbol = some symbol) :
    decl.symbol ∈ tree.standIns table bound ↔ symbol.isStandIn = true ∧ symbol.isBound = bound := by
  rw [Symbol.isStandIn_eq_true_iff, and_assoc]
  constructor
  · rintro ⟨-, -, same, -, -, -, knownSame, standIn⟩
    obtain rfl := Option.some.inj (known.symm.trans knownSame)
    exact standIn
  · intro standIn
    exact ⟨id, decl, symbol, reached, found, rfl, known, standIn⟩

variable (fits : ∀ root ∈ tree.roots, tree.Fits tree.maxDepth root) (nodup : tree.preorder.Nodup)

include fits nodup

theorem ncard_reachable : {id | tree.Reachable id}.ncard = tree.preorder.length :=
  ncard_of_nodup nodup fun _ => (mem_preorder_iff fits).symm

/-- As every declaration owns a symbol of its own, to count symbols is to count declarations. -/
theorem ncard_standIns (apart : tree.OwnsApart tree.preorder) (bound : Bool) :
    (tree.standIns table bound).ncard = tree.preorder.countP
      (tree.owns table fun symbol => symbol.isStandIn && symbol.isBound == bound) := by
  let owning := tree.preorder.filter
    (tree.owns table fun symbol => symbol.isStandIn && symbol.isBound == bound)
  have apartOwning : tree.OwnsApart owning := fun first inside second insideSecond =>
    apart first (List.mem_of_mem_filter inside) second (List.mem_of_mem_filter insideSecond)
  have distinct : ((tree.owned owning).map Prod.fst).Nodup :=
    nodup_owned (nodup.filter _) apartOwning
  have members (owned : SymbolId) :
      owned ∈ tree.standIns table bound ↔ owned ∈ (tree.owned owning).map Prod.fst := by
    constructor
    · rintro ⟨id, decl, symbol, reached, found, rfl, known, standIn⟩
      have test := (mem_standIns_iff reached found known).1
        ⟨id, decl, symbol, reached, found, rfl, known, standIn⟩
      have listed : id ∈ owning := by
        refine List.mem_filter.2 ⟨(mem_preorder_iff fits).2 reached, ?_⟩
        rw [owns_of_get? found known, test.1, test.2]
        simp
      exact List.mem_map.2 ⟨_, mem_owned_iff.2 ⟨listed, decl, found, rfl⟩, rfl⟩
    · intro inside
      obtain ⟨⟨symbol, id⟩, entry, rfl⟩ := List.mem_map.1 inside
      obtain ⟨kept, decl, found, rfl⟩ := mem_owned_iff.1 entry
      obtain ⟨listed, test⟩ := List.mem_filter.1 kept
      cases known : table.get? decl.symbol with
      | none => simp [owns, found, known] at test
      | some symbol =>
        rw [owns_of_get? found known] at test
        refine (mem_standIns_iff (reachable_of_mem_preorder listed) found known).2 ?_
        simpa using test
  have known : ∀ id ∈ owning, ∃ decl, tree.get? id = some decl := fun id inside =>
    exists_get?_of_mem_preorder fits (List.mem_of_mem_filter inside)
  rw [ncard_of_nodup distinct members, List.length_map, length_owned known,
    List.countP_eq_length_filter]

end Counts

section Ahead

theorem nextTree_of_forM_bindOwner {ids : List DeclId} {before after : SymbolTable}
    {stats last : BindingStats}
    (run : (ids.forM tree.bindOwner).run (before, stats) = .ok () (after, last)) :
    after.nextTree = before.nextTree := by
  refine holds_of_forM_bindOwner (fun table => table.nextTree = before.nextTree) ?_ run rfl
  intro table id symbol site span _ same
  rw [SymbolTable.nextTree_claim, same]

/-- Binds the symbols of some declarations to these ahead of the others, each with the span of its
declaration. -/
def bindAhead (tree : DeclTree) (table : SymbolTable) (early : List DeclId) : SymbolTable :=
  table.serveAll (early.filterMap fun id =>
    (tree.get? id).map fun decl => .bind decl.symbol ⟨tree.id, id⟩ decl.span)

theorem bindAhead_cons {id : DeclId} {decl : Decl} {symbol : Symbol} {table : SymbolTable}
    (found : tree.get? id = some decl) (known : table.get? decl.symbol = some symbol)
    (standIn : symbol.isStandIn = true) (early : List DeclId) : tree.bindAhead table (id :: early) =
      tree.bindAhead (table.claim decl.symbol ⟨tree.id, id⟩ decl.span) early := by
  have first : table.serve (.bind decl.symbol ⟨tree.id, id⟩ decl.span) =
      table.claim decl.symbol ⟨tree.id, id⟩ decl.span := by
    simp only [SymbolTable.serve, SymbolTable.bind_of_isStandIn known standIn]
  simp only [bindAhead, List.filterMap_cons, found, Option.map_some, SymbolTable.serveAll,
    List.foldl_cons, first]

/-- To bind placeholders ahead is to visit their declarations before the others. -/
theorem exists_forM_bindOwner_bindAhead {early : List DeclId} {table : SymbolTable}
    (bindable : ∀ id ∈ early, tree.Bindable table id)
    (standIn : ∀ id ∈ early, tree.owns table Symbol.isStandIn id = true) (stats : BindingStats) :
    ∃ last, (early.forM tree.bindOwner).run (table, stats) =
      .ok () (tree.bindAhead table early, last) := by
  induction early generalizing table stats with
  | nil => exact ⟨stats, rfl⟩
  | cons id early ih =>
    obtain ⟨⟨decl, symbol, found, known, admitted⟩, others⟩ := List.forall_mem_cons.1 bindable
    obtain ⟨here, standInOthers⟩ := List.forall_mem_cons.1 standIn
    rw [owns_of_get? found known] at here
    have bindableThen : ∀ other ∈ early,
        tree.Bindable (table.claim decl.symbol ⟨tree.id, id⟩ decl.span) other :=
      fun other inside => (bindable_claim_iff known _ _ other).2 (others other inside)
    rw [← owns_isStandIn_claim known ⟨tree.id, id⟩ decl.span] at standInOthers
    obtain ⟨last, rest⟩ := ih bindableThen standInOthers (stats.counting symbol)
    refine ⟨last, forM_bindOwner_cons_run_eq_ok_iff.2 ⟨decl, symbol, found, known, admitted, ?_⟩⟩
    rw [bindAhead_cons found known here]
    exact rest

/-- What binding can deal with it can deal with after it has visited other declarations. -/
theorem bindable_of_forM_bindOwner {ids : List DeclId} {before after : SymbolTable}
    {stats last : BindingStats}
    (run : (ids.forM tree.bindOwner).run (before, stats) = .ok () (after, last)) {id : DeclId}
    (bindable : tree.Bindable before id) : tree.Bindable after id := by
  refine holds_of_forM_bindOwner (tree.Bindable · id) ?_ run bindable
  intro table claimed symbol site span known here
  exact (bindable_claim_iff known site span id).2 here

variable {ids early others : List DeclId} {before prepared after final : SymbolTable}

/-- Where all declarations own different symbols, those that have been bound ahead make no difference
to what each of the symbols becomes. -/
theorem Claimed.eq_of_ahead (apart : tree.OwnsApart ids) (subset : early ⊆ ids)
    (perm : ids.Perm others) (claimed : tree.Claimed ids before after)
    (ahead : tree.Claimed early before prepared) (later : tree.Claimed others prepared final)
    (symbol : SymbolId) : final.get? symbol = after.get? symbol := by
  by_cases owned : ∃ id ∈ ids, ∃ decl, tree.get? id = some decl ∧ decl.symbol = symbol
  · obtain ⟨id, inside, decl, found, rfl⟩ := owned
    obtain ⟨same, data, foundSame, known, knownAfter⟩ := claimed.owned id inside
    obtain rfl := Option.some.inj (found.symm.trans foundSame)
    have insideOthers := perm.mem_iff.1 inside
    by_cases first : id ∈ early
    · have prepared := ahead.get?_eq first found known
      rw [later.get?_eq insideOthers found prepared, knownAfter, Symbol.claimedAt_claimedAt]
    · have unowned : ∀ other ∈ early, ∀ around, tree.get? other = some around →
          around.symbol ≠ decl.symbol := by
        intro other insideOther around foundOther sameSymbol
        have twice := apart other (subset insideOther) id inside around decl foundOther found sameSymbol
        exact first (twice ▸ insideOther)
      have untouched := (ahead.others decl.symbol unowned).trans known
      rw [later.get?_eq insideOthers found untouched, knownAfter]
  · push Not at owned
    rw [later.others symbol fun id inside => owned id (perm.mem_iff.2 inside),
      ahead.others symbol fun id inside => owned id (subset inside), claimed.others symbol owned]

variable {stats again first last : BindingStats}

theorem forM_bindOwner_ahead (apart : tree.OwnsApart ids) (subset : early ⊆ ids)
    (perm : ids.Perm others)
    (run : (ids.forM tree.bindOwner).run (before, {}) = .ok () (after, stats))
    (ahead : (early.forM tree.bindOwner).run (before, first) = .ok () (prepared, last))
    (later : (others.forM tree.bindOwner).run (prepared, {}) = .ok () (final, again)) :
    final = after ∧ again.visited = stats.visited ∧
      again.bound + again.alreadyBound = stats.bound + stats.alreadyBound := by
  have apartEarly : tree.OwnsApart early := fun one inside two insideTwo =>
    apart one (subset inside) two (subset insideTwo)
  have apartOthers : tree.OwnsApart others := fun one inside two insideTwo =>
    apart one (perm.mem_iff.2 inside) two (perm.mem_iff.2 insideTwo)
  have claimed := forM_bindOwner_run_ok apart run
  have claimedEarly := forM_bindOwner_run_ok apartEarly ahead
  have claimedLater := forM_bindOwner_run_ok apartOthers later
  obtain ⟨visited, sum⟩ := counts_of_forM_bindOwner run
  obtain ⟨visitedLater, sumLater⟩ := counts_of_forM_bindOwner later
  refine ⟨SymbolTable.ext_get? ?_ ?_, ?_, ?_⟩
  · exact claimed.eq_of_ahead apart subset perm claimedEarly claimedLater
  · rw [nextTree_of_forM_bindOwner later, nextTree_of_forM_bindOwner ahead,
      nextTree_of_forM_bindOwner run]
  · rw [visited, visitedLater, perm.length_eq]
  · rw [sum, sumLater, owns_isStandIn_of_forM_bindOwner ahead, perm.countP_eq]

end Ahead

/-- Visiting a declaration has nothing to do with the roots. -/
theorem Reordered.bindOwner {other : DeclTree} (reordered : tree.Reordered other) :
    other.bindOwner = tree.bindOwner := by
  obtain ⟨id, decls, roots⟩ := tree
  obtain ⟨sameId, sameDecls, otherRoots⟩ := other
  obtain ⟨rfl, rfl, -⟩ := reordered
  rfl

/-- The table after binding and the counts: the placeholders that are owned under the roots and were
not bound, classes apart, are bound to their declarations, and take the spans of these if they have no
source. Nothing else changes. -/
structure BindsAll (tree : DeclTree) (before after : SymbolTable) (stats : BindingStats) : Prop where
  bound : ∀ id decl symbol, tree.Reachable id → tree.get? id = some decl →
    before.get? decl.symbol = some symbol → decl.symbol ∈ tree.standIns before false →
    after.get? decl.symbol = some { symbol with
      site := some ⟨tree.id, id⟩, source := some (symbol.source.getD decl.span) }
  unchanged : ∀ other ∉ tree.standIns before false, after.get? other = before.get? other
  nextTree : after.nextTree = before.nextTree
  visited : stats.visited = {id | tree.Reachable id}.ncard
  newly : stats.bound = (tree.standIns before false).ncard
  already : stats.alreadyBound = (tree.standIns before true).ncard

theorem bindsAll_of_run (tidy : tree.Tidy) {before after : SymbolTable} {stats : BindingStats}
    (run : tree.bindPlaceholders.run before = .ok stats after) :
    tree.BindsAll before after stats := by
  obtain ⟨fits, claimed⟩ := claimed_of_bindPlaceholders tidy.ownsApart run
  have nodup := tidy.nodup (closed_of_fits fits)
  have counts := stats_of_bindPlaceholders tidy.ownsApart run nodup
  constructor
  · intro id decl symbol reached found known free
    have inside := (mem_preorder_iff fits).2 reached
    obtain ⟨standIn, unbound⟩ := (mem_standIns_iff reached found known).1 free
    rw [claimed.get?_eq inside found known, Symbol.claimedAt_of_isStandIn standIn, unbound]
    rfl
  · intro other notFree
    by_cases owned : ∃ id ∈ tree.preorder, ∃ decl, tree.get? id = some decl ∧ decl.symbol = other
    · obtain ⟨id, inside, decl, found, rfl⟩ := owned
      obtain ⟨same, symbol, foundSame, known, after⟩ := claimed.owned id inside
      obtain rfl := Option.some.inj (found.symm.trans foundSame)
      rw [mem_standIns_iff (reachable_of_mem_preorder inside) found known] at notFree
      rw [after, known]
      cases standIn : symbol.isStandIn with
      | false => rw [Symbol.claimedAt_of_not_isStandIn standIn]
      | true =>
        have bound : symbol.isBound = true := by simpa [standIn] using notFree
        rw [Symbol.claimedAt_of_isStandIn standIn, if_pos bound]
    · push Not at owned
      exact claimed.others other owned
  · exact nextTree_of_forM_bindOwner (bindPlaceholders_run_eq_ok_iff.1 run).2
  · rw [counts, ncard_reachable fits nodup]
    rfl
  · rw [counts, ncard_standIns fits nodup tidy.ownsApart]
    simp [tally]
  · rw [counts, ncard_standIns fits nodup tidy.ownsApart]
    simp [tally]

/-- Binding placeholders ahead, to their own declarations, and walking the roots in another order leads
to the same table, and to the same counts if those found bound are counted with those newly bound. -/
theorem bindPlaceholders_run_of_ahead (tidy : tree.Tidy) {before after : SymbolTable}
    {stats : BindingStats} (run : tree.bindPlaceholders.run before = .ok stats after)
    {other : DeclTree} (reordered : tree.Reordered other) {early : List DeclId}
    (free : ∀ id ∈ early, tree.Reachable id ∧
      ∃ decl, tree.get? id = some decl ∧ decl.symbol ∈ tree.standIns before false) :
    ∃ again, other.bindPlaceholders.run (tree.bindAhead before early) = .ok again after ∧
      again.visited = stats.visited ∧
      again.bound + again.alreadyBound = stats.bound + stats.alreadyBound := by
  obtain ⟨fits, bound⟩ := bindPlaceholders_run_eq_ok_iff.1 run
  have subset : early ⊆ tree.preorder := fun id inside =>
    (mem_preorder_iff fits).2 (free id inside).1
  have bindable := exists_forM_bindOwner_run_iff.1 ⟨after, stats, bound⟩
  have standIn : ∀ id ∈ early, tree.owns before Symbol.isStandIn id = true := by
    intro id inside
    obtain ⟨reached, decl, found, listed⟩ := free id inside
    obtain ⟨same, symbol, foundSame, known, -⟩ := bindable id (subset inside)
    obtain rfl := Option.some.inj (found.symm.trans foundSame)
    rw [owns_of_get? found known]
    exact ((mem_standIns_iff reached found known).1 listed).1
  obtain ⟨last, ahead⟩ := exists_forM_bindOwner_bindAhead
    (fun id inside => bindable id (subset inside)) standIn {}
  obtain ⟨owners, declared⟩ :=
    reordered.exists_declared (tidy.exists_declared (closed_of_fits fits))
  have fitsOther := (declared_eq_ok_iff.1 declared).1
  have still : ∀ id ∈ other.preorder, tree.Bindable (tree.bindAhead before early) id :=
    fun id inside =>
      bindable_of_forM_bindOwner ahead (bindable id (reordered.preorder.mem_iff.2 inside))
  have done : ∃ final again, (other.preorder.forM tree.bindOwner).run
      (tree.bindAhead before early, {}) = .ok () (final, again) :=
    exists_forM_bindOwner_run_iff.2 still
  obtain ⟨final, again, later⟩ := done
  obtain ⟨rfl, visited, sum⟩ :=
    forM_bindOwner_ahead tidy.ownsApart subset reordered.preorder bound ahead later
  refine ⟨again, bindPlaceholders_run_eq_ok_iff.2 ⟨fitsOther, ?_⟩, visited, sum⟩
  rw [reordered.bindOwner]
  exact later

/-- Binding the placeholders of a tidy tree in closed form: when it succeeds, what it makes of the table
and what it counts, and that neither the order of the roots nor what has been bound ahead matters. -/
theorem bindPlaceholders_closedForm (tree : DeclTree) (before : SymbolTable) (tidy : tree.Tidy) :
    ((∃ stats after, tree.bindPlaceholders.run before = .ok stats after) ↔
      tree.AllBindable before) ∧
    ∀ stats after, tree.bindPlaceholders.run before = .ok stats after →
      tree.BindsAll before after stats ∧
      ∀ other, tree.Reordered other → ∀ early : List DeclId,
        (∀ id ∈ early, tree.Reachable id ∧
          ∃ decl, tree.get? id = some decl ∧ decl.symbol ∈ tree.standIns before false) →
        ∃ again, other.bindPlaceholders.run (tree.bindAhead before early) = .ok again after ∧
          again.visited = stats.visited ∧
          again.bound + again.alreadyBound = stats.bound + stats.alreadyBound := by
  refine ⟨exists_bindPlaceholders_run_iff_allBindable tidy, fun stats after run => ⟨?_, ?_⟩⟩
  · exact bindsAll_of_run tidy run
  · intro other reordered early free
    exact bindPlaceholders_run_of_ahead tidy run reordered free

/-- The symbols of the sample as placeholders, of which the first is bound already. -/
def sampleStandIns : SymbolTable :=
  { sampleSymbols with symbols := sampleSymbols.symbols.mapIdx fun index symbol =>
      { symbol with
        origin := .placeholder, source := none, site := if index = 0 then symbol.site else none } }

/-- The lambda is bound ahead, and the roots are walked from the last one to the first. -/
theorem bindPlaceholders_closedForm_sample : ∃ after,
    sample.bindPlaceholders.run sampleStandIns =
        .ok { visited := 8, bound := 6, alreadyBound := 1 } after ∧
      sample.BindsAll sampleStandIns after { visited := 8, bound := 6, alreadyBound := 1 } ∧
      ∃ again, { sample with roots := [⟨7⟩, ⟨5⟩] }.bindPlaceholders.run
          (sample.bindAhead sampleStandIns [⟨3⟩]) = .ok again after ∧
        again.bound + again.alreadyBound = 7 := by
  have declared : ∃ owners, sample.declared = .ok owners := ⟨_, rfl⟩
  have tidy := (exists_declared_iff_tidy.1 declared).2
  have done : ∃ after, sample.bindPlaceholders.run sampleStandIns =
      .ok { visited := 8, bound := 6, alreadyBound := 1 } after := ⟨_, rfl⟩
  obtain ⟨after, run⟩ := done
  obtain ⟨-, spec⟩ := bindPlaceholders_closedForm sample sampleStandIns tidy
  obtain ⟨binds, same⟩ := spec _ after run
  have reached : sample.Reachable ⟨3⟩ := by
    have root : sample.Reachable ⟨5⟩ := .root (by decide)
    have method : sample.Reachable ⟨4⟩ := root.child rfl (by decide)
    exact method.child rfl (by decide)
  have reordered : sample.Reordered { sample with roots := [⟨7⟩, ⟨5⟩] } :=
    ⟨rfl, rfl, List.Perm.swap _ _ _⟩
  obtain ⟨again, runAgain, -, sum⟩ := same _ reordered [⟨3⟩] fun id inside => by
    obtain rfl := List.mem_singleton.1 inside
    exact ⟨reached, _, rfl, (mem_standIns_iff reached rfl rfl).2 ⟨rfl, rfl⟩⟩
  exact ⟨after, run, binds, again, runAgain, sum⟩

end DeclTree

end Relabel
