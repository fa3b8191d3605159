import Relabel.Proofs.Lookup
import Relabel.Symbol.Replacement

namespace Relabel

/-- What takes the place of a symbol: a placeholder of the same kind. Only that of a plain function has
a source from the start. -/
def Symbol.standIn (symbol : Symbol) : Symbol where
  kind := symbol.kind
  origin := .placeholder
  source := if symbol.kind = .function .plain then symbol.source else none

namespace SymbolTable

def push (table : SymbolTable) (symbol : Symbol) : SymbolTable :=
  { table with symbols := table.symbols.push symbol }

/-- The table with placeholders for the listed symbols, in their order. -/
def withStandIns (table : SymbolTable) (replaced : List SymbolId) : SymbolTable :=
  { table with
    symbols := table.symbols ++ ((replaced.filterMap table.get?).map Symbol.standIn).toArray }

variable {table : SymbolTable}

theorem get?_push (table : SymbolTable) (symbol : Symbol) (id : SymbolId) :
    (table.push symbol).get? id = if id = ⟨table.size⟩ then some symbol else table.get? id := by
  cases id
  simp [push, get?, size, Array.getElem?_push]

theorem size_push (table : SymbolTable) (symbol : Symbol) :
    (table.push symbol).size = table.size + 1 := by
  simp [push, size]

theorem lt_size_of_get? {id : SymbolId} {symbol : Symbol} (known : table.get? id = some symbol) :
    id.index < table.size := by
  rw [← get?_isSome_iff, known]
  rfl

theorem ne_size_of_get? {id : SymbolId} {symbol : Symbol} (known : table.get? id = some symbol) :
    id ≠ ⟨table.size⟩ := by
  intro same
  have inside := lt_size_of_get? known
  rw [same] at inside
  exact Nat.lt_irrefl _ inside

theorem get?_push_of_get? {id : SymbolId} {symbol : Symbol} (known : table.get? id = some symbol)
    (other : Symbol) : (table.push other).get? id = some symbol := by
  rw [get?_push, if_neg (ne_size_of_get? known), known]

theorem replacementFor_of_replaceable {old : SymbolId} {symbol : Symbol}
    (known : table.get? old = some symbol) (replaceable : symbol.kind ≠ .cls) :
    table.replacementFor old true = .ok (⟨table.size⟩, table.push symbol.standIn) := by
  simp only [replacementFor, SymbolTable.get, known, Except.map, Symbol.standIn]
  cases kind : symbol.kind with
  | cls => exact absurd kind replaceable
  | function provenance => cases provenance <;> rfl
  | _ => rfl

/-- A transformed symbol that is no class is replaced by its stand-in, any other one stays. -/
theorem replacementFor_eq_ok_iff {after : SymbolTable} {old new : SymbolId} {transformed : Bool} :
    table.replacementFor old transformed = .ok (new, after) ↔
      (transformed = true ∧ ∃ symbol, table.get? old = some symbol ∧ symbol.kind ≠ .cls ∧
        new = ⟨table.size⟩ ∧ after = table.push symbol.standIn) ∨
      ((transformed = true → ∃ symbol, table.get? old = some symbol ∧ symbol.kind = .cls) ∧
        new = old ∧ after = table) := by
  cases transformed with
  | false =>
    rw [replacementFor_untransformed, Except.ok.injEq, Prod.mk.injEq]
    simp [eq_comm]
  | true =>
    cases known : table.get? old with
    | none => simp [replacementFor, SymbolTable.get, known, Except.map]
    | some symbol =>
      by_cases isClass : symbol.kind = .cls
      · rw [replacementFor_class known isClass, Except.ok.injEq, Prod.mk.injEq]
        simp [isClass, eq_comm]
      · rw [replacementFor_of_replaceable known isClass, Except.ok.injEq, Prod.mk.injEq, eq_comm,
          eq_comm (b := after)]
        simp [isClass]

/-- Replacing happens exactly to what is transformed and no class. -/
theorem ne_iff_of_replacementFor {after : SymbolTable} {old new : SymbolId} {symbol : Symbol}
    {transformed : Bool} (known : table.get? old = some symbol)
    (replacement : table.replacementFor old transformed = .ok (new, after)) :
    new ≠ old ↔ transformed = true ∧ symbol.kind ≠ .cls := by
  rcases replacementFor_eq_ok_iff.1 replacement with
    ⟨holds, same, found, replaceable, rfl, -⟩ | ⟨isClass, rfl, -⟩
  · obtain rfl := Option.some.inj (known.symm.trans found)
    exact iff_of_true (ne_size_of_get? known).symm ⟨holds, replaceable⟩
  · refine iff_of_false (fun differs => differs rfl) fun both => ?_
    obtain ⟨same, found, kind⟩ := isClass both.1
    obtain rfl := Option.some.inj (known.symm.trans found)
    exact both.2 kind

/-- The later table knows the symbols of the earlier one, with the kinds and origins they had. -/
def Keeps (later earlier : SymbolTable) : Prop :=
  ∀ id symbol, earlier.get? id = some symbol →
    ∃ same, later.get? id = some same ∧ same.kind = symbol.kind ∧ same.origin = symbol.origin

namespace Keeps

theorem refl (table : SymbolTable) : table.Keeps table :=
  fun _ symbol known => ⟨symbol, known, rfl, rfl⟩

theorem trans {a b c : SymbolTable} (first : b.Keeps a) (second : c.Keeps b) : c.Keeps a := by
  intro id symbol known
  obtain ⟨middle, still, kind, origin⟩ := first id symbol known
  obtain ⟨last, inLast, sameKind, sameOrigin⟩ := second id middle still
  exact ⟨last, inLast, sameKind.trans kind, sameOrigin.trans origin⟩

theorem of_replacementFor {before after : SymbolTable} {old new : SymbolId} {transformed : Bool}
    (replacement : before.replacementFor old transformed = .ok (new, after)) :
    after.Keeps before := by
  rcases replacementFor_eq_ok_iff.1 replacement with
    ⟨-, symbol, -, -, -, rfl⟩ | ⟨-, -, rfl⟩
  · intro other same known
    exact ⟨same, get?_push_of_get? known _, rfl, rfl⟩
  · exact .refl after

end Keeps

section StandIns

variable {replaced : List SymbolId}

theorem withStandIns_nil (table : SymbolTable) : table.withStandIns [] = table := by
  simp [withStandIns]

/-- Replacing symbols that are known one after the other. -/
theorem withStandIns_cons {old : SymbolId} {symbol : Symbol} (found : table.get? old = some symbol)
    (known : ∀ other ∈ replaced, ∃ symbol, table.get? other = some symbol) :
    table.withStandIns (old :: replaced) = (table.push symbol.standIn).withStandIns replaced := by
  have same : replaced.filterMap (table.push symbol.standIn).get? =
      replaced.filterMap table.get? := by
    refine List.filterMap_congr fun other inside => ?_
    obtain ⟨one, foundOne⟩ := known other inside
    rw [foundOne, get?_push_of_get? foundOne]
  rw [withStandIns, withStandIns, same, List.filterMap_cons_some found, List.map_cons]
  simp [push]

theorem get?_withStandIns_of_get? {id : SymbolId} {symbol : Symbol}
    (known : table.get? id = some symbol) (replaced : List SymbolId) :
    (table.withStandIns replaced).get? id = some symbol := by
  have inside := lt_size_of_get? known
  exact (Array.getElem?_append_left inside).trans known

theorem size_withStandIns (known : ∀ old ∈ replaced, ∃ symbol, table.get? old = some symbol) :
    (table.withStandIns replaced).size = table.size + replaced.length := by
  simp [withStandIns, size, length_filterMap_of_known known]

theorem get?_withStandIns_new (known : ∀ old ∈ replaced, ∃ symbol, table.get? old = some symbol)
    {index : Nat} {old : SymbolId} {symbol : Symbol} (listed : replaced[index]? = some old)
    (found : table.get? old = some symbol) :
    (table.withStandIns replaced).get? ⟨table.size + index⟩ = some symbol.standIn := by
  have here : (replaced.filterMap table.get?)[index]? = some symbol := by
    rw [getElem?_filterMap_of_known known, listed, Option.bind_some, found]
  change (table.symbols ++ _)[table.symbols.size + index]? = _
  rw [Array.getElem?_append_right (Nat.le_add_right _ _), Nat.add_sub_cancel_left]
  simp [here]

end StandIns

end SymbolTable

/-- The symbol in the place of `old` if those in `replaced` get new ones, numbered from `base` on. -/
def SymbolId.allotted (base : Nat) (replaced : List SymbolId) (old : SymbolId) : SymbolId :=
  if old ∈ replaced then ⟨base + replaced.idxOf old⟩ else old

namespace SymbolId

variable {base : Nat} {replaced : List SymbolId} {old : SymbolId}

theorem allotted_of_mem (inside : old ∈ replaced) :
    old.allotted base replaced = ⟨base + replaced.idxOf old⟩ := if_pos inside

theorem allotted_of_not_mem (outside : old ∉ replaced) : old.allotted base replaced = old :=
  if_neg outside

theorem allotted_cons_self (base : Nat) (replaced : List SymbolId) (old : SymbolId) :
    old.allotted base (old :: replaced) = ⟨base⟩ := by
  rw [allotted_of_mem List.mem_cons_self, List.idxOf_cons_self, Nat.add_zero]

theorem allotted_cons_of_ne {first : SymbolId} (other : old ≠ first) :
    old.allotted base (first :: replaced) = old.allotted (base + 1) replaced := by
  by_cases inside : old ∈ replaced
  · rw [allotted_of_mem inside, allotted_of_mem (List.mem_cons_of_mem _ inside),
      List.idxOf_cons_ne _ other.symm, Nat.succ_eq_add_one, Nat.add_right_comm, Nat.add_assoc]
  · rw [allotted_of_not_mem inside, allotted_of_not_mem (List.not_mem_cons_of_ne_of_not_mem other inside)]

theorem le_allotted (base : Nat) (inside : old ∈ replaced) :
    base ≤ (old.allotted base replaced).index := by
  rw [allotted_of_mem inside]
  exact Nat.le_add_right _ _

/-- A symbol below `base` is replaced iff it does not stay. -/
theorem allotted_ne_iff (below : old.index < base) :
    old.allotted base replaced ≠ old ↔ old ∈ replaced := by
  by_cases inside : old ∈ replaced
  · have higher : old.allotted base replaced ≠ old := by
      intro same
      have above := le_allotted base inside
      rw [same] at above
      omega
    exact iff_of_true higher inside
  · exact iff_of_false (fun differs => differs (allotted_of_not_mem inside)) inside

/-- Symbols below `base` keep apart. -/
theorem injOn_allotted {other : SymbolId} (below : old.index < base) (belowOther : other.index < base)
    (same : old.allotted base replaced = other.allotted base replaced) : old = other := by
  by_cases inside : old ∈ replaced
  · have above := le_allotted base inside
    by_cases insideOther : other ∈ replaced
    · rw [allotted_of_mem inside, allotted_of_mem insideOther] at same
      have index := congrArg SymbolId.index same
      exact (List.idxOf_inj inside).1 (by simpa using index)
    · rw [same, allotted_of_not_mem insideOther] at above
      omega
  · by_cases insideOther : other ∈ replaced
    · have above := le_allotted base insideOther
      rw [← same, allotted_of_not_mem inside] at above
      omega
    · rwa [allotted_of_not_mem inside, allotted_of_not_mem insideOther] at same

end SymbolId

end Relabel
