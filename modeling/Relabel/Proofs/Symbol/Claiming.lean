import Relabel.Proofs.Symbol.Replacement

namespace Relabel

/-- The symbol of a declaration after binding: a placeholder that is not bound yet and no class
stands for the declaration now. -/
def Symbol.claimedAt (symbol : Symbol) (site : DeclSite) (span : Span) : Symbol :=
  if symbol.isPlaceholder && symbol.kind.replaceable && !symbol.isBound then
    symbol.boundTo site span
  else symbol

theorem Symbol.claimedAt_claimedAt (symbol : Symbol) (site other : DeclSite)
    (span otherSpan : Span) :
    (symbol.claimedAt site span).claimedAt other otherSpan = symbol.claimedAt site span := by
  by_cases free : symbol.isPlaceholder && symbol.kind.replaceable && !symbol.isBound
  · have first : symbol.claimedAt site span = symbol.boundTo site span := if_pos free
    rw [first]
    exact if_neg (by simp [boundTo, isBound])
  · have first : symbol.claimedAt site span = symbol := if_neg free
    rw [first]
    exact if_neg free

/-- Binding looks at the placeholders that are no classes. -/
def Symbol.isStandIn (symbol : Symbol) : Bool := symbol.isPlaceholder && symbol.kind.replaceable

theorem Symbol.isStandIn_eq_true_iff {symbol : Symbol} :
    symbol.isStandIn = true ↔ symbol.isPlaceholder = true ∧ symbol.kind ≠ .cls := by
  simp [isStandIn, Symbol.Kind.replaceable]

theorem Symbol.claimedAt_of_isStandIn {symbol : Symbol} (standIn : symbol.isStandIn = true)
    (site : DeclSite) (span : Span) :
    symbol.claimedAt site span = if symbol.isBound then symbol else symbol.boundTo site span := by
  unfold isStandIn at standIn
  cases bound : symbol.isBound <;> simp [claimedAt, standIn, bound]

theorem Symbol.claimedAt_of_not_isStandIn {symbol : Symbol} (other : symbol.isStandIn = false)
    (site : DeclSite) (span : Span) : symbol.claimedAt site span = symbol := by
  unfold isStandIn at other
  simp [claimedAt, other]

theorem Symbol.kind_claimedAt (symbol : Symbol) (site : DeclSite) (span : Span) :
    (symbol.claimedAt site span).kind = symbol.kind := by
  unfold claimedAt
  split <;> rfl

theorem Symbol.origin_claimedAt (symbol : Symbol) (site : DeclSite) (span : Span) :
    (symbol.claimedAt site span).origin = symbol.origin := by
  unfold claimedAt
  split <;> rfl

theorem Symbol.isStandIn_claimedAt (symbol : Symbol) (site : DeclSite) (span : Span) :
    (symbol.claimedAt site span).isStandIn = symbol.isStandIn := by
  rw [isStandIn, isStandIn, isPlaceholder, isPlaceholder, kind_claimedAt, origin_claimedAt]

theorem Symbol.isBound_claimedAt (symbol : Symbol) (site : DeclSite) (span : Span) :
    (symbol.claimedAt site span).isBound = (symbol.isBound || symbol.isStandIn) := by
  cases standIn : symbol.isStandIn with
  | false => rw [claimedAt_of_not_isStandIn standIn, Bool.or_false]
  | true =>
    rw [claimedAt_of_isStandIn standIn, Bool.or_true]
    split
    · assumption
    · rfl

namespace SymbolTable

/-- The table in which the declaration at `site` has claimed its symbol. -/
def claim (table : SymbolTable) (id : SymbolId) (site : DeclSite) (span : Span) : SymbolTable :=
  { table with symbols := table.symbols.modify id.index (·.claimedAt site span) }

theorem get?_claim {table : SymbolTable} {id : SymbolId} {symbol : Symbol}
    (known : table.get? id = some symbol) (site : DeclSite) (span : Span) (other : SymbolId) :
    (table.claim id site span).get? other =
      if other = id then some (symbol.claimedAt site span) else table.get? other := by
  cases id
  cases other
  simp only [get?] at known
  simp only [claim, get?, Array.getElem?_modify, SymbolId.mk.injEq, eq_comm]
  split
  · next same =>
    subst same
    rw [known, Option.map_some]
  · rfl

theorem Keeps.claim {table : SymbolTable} {id : SymbolId} {symbol : Symbol}
    (known : table.get? id = some symbol) (site : DeclSite) (span : Span) :
    (table.claim id site span).Keeps table := by
  intro other data found
  rw [get?_claim known]
  by_cases same : other = id
  · subst same
    obtain rfl := Option.some.inj (known.symm.trans found)
    exact ⟨_, if_pos rfl, Symbol.kind_claimedAt .., Symbol.origin_claimedAt ..⟩
  · exact ⟨data, (if_neg same).trans found, rfl, rfl⟩

@[simp] theorem nextTree_claim (table : SymbolTable) (id : SymbolId) (site : DeclSite) (span : Span) :
    (table.claim id site span).nextTree = table.nextTree :=
  rfl

theorem claim_of_fixed {table : SymbolTable} {id : SymbolId} {symbol : Symbol}
    (known : table.get? id = some symbol) {site : DeclSite} {span : Span}
    (fixed : symbol.claimedAt site span = symbol) : table.claim id site span = table := by
  have same : table.symbols.modify id.index (·.claimedAt site span) = table.symbols := by
    refine Array.ext_getElem? fun index => ?_
    rw [Array.getElem?_modify]
    split
    · next here =>
      subst here
      change table.symbols[id.index]? = _ at known
      rw [known, Option.map_some, fixed]
    · rfl
  rw [claim, same]

theorem bind_of_isStandIn {table : SymbolTable} {id : SymbolId} {symbol : Symbol}
    (known : table.get? id = some symbol) (standIn : symbol.isStandIn = true) (site : DeclSite)
    (span : Span) : table.bind id site span =
      .ok (if symbol.isBound then .alreadyBound else .bound, table.claim id site span) := by
  cases bound : symbol.isBound with
  | true =>
    have fixed : symbol.claimedAt site span = symbol := by
      rw [Symbol.claimedAt_of_isStandIn standIn, if_pos bound]
    rw [bind_of_isBound known bound, claim_of_fixed known fixed]
    rfl
  | false =>
    have moved : symbol.claimedAt site span = symbol.boundTo site span := by
      rw [Symbol.claimedAt_of_isStandIn standIn, bound]
      rfl
    have inside : id.index < table.symbols.size := lt_size_of_get? known
    have same : table.symbols.modify id.index (·.claimedAt site span) =
        table.symbols.setIfInBounds id.index (symbol.boundTo site span) := by
      refine Array.ext_getElem? fun index => ?_
      rw [Array.getElem?_modify, Array.getElem?_setIfInBounds]
      by_cases here : id.index = index
      · subst here
        change table.symbols[id.index]? = _ at known
        rw [if_pos rfl, if_pos rfl, if_pos inside, known, Option.map_some, moved]
      · rw [if_neg here, if_neg here]
    rw [bind_of_not_isBound known bound, claim, same]
    rfl

end SymbolTable

end Relabel
