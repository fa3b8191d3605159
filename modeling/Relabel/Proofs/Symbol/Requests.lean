import Relabel.Proofs.Symbol.Claiming

namespace Relabel

namespace Symbol

/-- A symbol that has been offered a binding. It accepts only while it is not bound. -/
def offered (symbol : Symbol) : Option (DeclSite × Span) → Symbol
  | some (site, span) => if symbol.isBound then symbol else symbol.boundTo site span
  | none => symbol

theorem kind_offered (symbol : Symbol) (binding : Option (DeclSite × Span)) :
    (symbol.offered binding).kind = symbol.kind := by
  cases binding with
  | none => rfl
  | some binding =>
    rw [offered]
    split <;> rfl

theorem origin_offered (symbol : Symbol) (binding : Option (DeclSite × Span)) :
    (symbol.offered binding).origin = symbol.origin := by
  cases binding with
  | none => rfl
  | some binding =>
    rw [offered]
    split <;> rfl

theorem offered_of_isBound {symbol : Symbol} (bound : symbol.isBound = true)
    (binding : Option (DeclSite × Span)) : symbol.offered binding = symbol := by
  cases binding with
  | none => rfl
  | some binding => exact if_pos bound

theorem offered_of_not_isBound {symbol : Symbol} (free : symbol.isBound = false) (site : DeclSite)
    (span : Span) : symbol.offered (some (site, span)) = symbol.boundTo site span := by
  rw [offered, free]
  rfl

/-- Of two bindings, the one that is offered first counts. -/
theorem offered_offered (symbol : Symbol) (first second : Option (DeclSite × Span)) :
    (symbol.offered first).offered second = symbol.offered (first.or second) := by
  cases first with
  | none => rfl
  | some binding =>
    obtain ⟨site, span⟩ := binding
    have bound : (symbol.offered (some (site, span))).isBound = true := by
      rw [offered]
      split
      · assumption
      · rfl
    rw [offered_of_isBound bound, Option.some_or]

end Symbol

namespace SymbolTable

/-- What can be asked of a symbol table. -/
inductive Request where
  | add (kind : Symbol.Kind) (origin : Symbol.Origin) (source : Option Span)
  | bind (id : SymbolId) (site : DeclSite) (span : Span)
  | takeTree
deriving DecidableEq, Repr

namespace Request

/-- The declaration that a symbol is to be bound to, with the span of that. -/
def binding? (id : SymbolId) : Request → Option (DeclSite × Span)
  | bind other site span => if other = id then some (site, span) else none
  | add .. | takeTree => none

/-- The numbers for new trees that are given in answer to a request. -/
def trees (table : SymbolTable) : Request → List TreeId
  | takeTree => [table.takeTree.1]
  | add .. | bind .. => []

end Request

/-- The table after a request. One to bind an unknown symbol is refused. -/
def serve (table : SymbolTable) : Request → SymbolTable
  | .add kind origin source => (table.add kind origin source).2
  | .bind id site span =>
    match table.bind id site span with
    | .ok (_, after) => after
    | .error _ => table
  | .takeTree => table.takeTree.2

def serveAll (table : SymbolTable) (requests : List Request) : SymbolTable :=
  requests.foldl serve table

/-- The numbers for new trees that are given in answer to requests, in their order. -/
def handedOut (table : SymbolTable) : List Request → List TreeId
  | [] => []
  | request :: requests => request.trees table ++ (table.serve request).handedOut requests

/-- The first of the bindings that are asked for a symbol. -/
def firstBinding? (requests : List Request) (id : SymbolId) : Option (DeclSite × Span) :=
  requests.findSome? (·.binding? id)

theorem serveAll_append (table : SymbolTable) (first second : List Request) :
    table.serveAll (first ++ second) = (table.serveAll first).serveAll second :=
  List.foldl_append

theorem handedOut_append (table : SymbolTable) (first second : List Request) :
    table.handedOut (first ++ second) =
      table.handedOut first ++ (table.serveAll first).handedOut second := by
  induction first generalizing table with
  | nil => rfl
  | cons request first ih =>
    rw [List.cons_append, handedOut, handedOut, ih, List.append_assoc]
    rfl

theorem firstBinding?_cons (request : Request) (requests : List Request) (id : SymbolId) :
    firstBinding? (request :: requests) id =
      (request.binding? id).or (firstBinding? requests id) := by
  rw [firstBinding?, List.findSome?_cons]
  cases request.binding? id <;> rfl

section Serving

variable {table : SymbolTable} {id : SymbolId} {symbol : Symbol}

theorem serve_bind_of_isBound (known : table.get? id = some symbol) (bound : symbol.isBound = true)
    (site : DeclSite) (span : Span) : table.serve (.bind id site span) = table := by
  simp only [serve, bind_of_isBound known bound]

theorem serve_bind_of_unknown (unknown : table.get? id = none) (site : DeclSite) (span : Span) :
    table.serve (.bind id site span) = table := by
  simp only [serve, SymbolTable.bind, SymbolTable.get, unknown, Except.map]

theorem serve_bind_of_not_isBound (known : table.get? id = some symbol)
    (free : symbol.isBound = false) (site : DeclSite) (span : Span) :
    table.serve (.bind id site span) = { table with
      symbols := table.symbols.setIfInBounds id.index (symbol.boundTo site span) } := by
  simp only [serve, bind_of_not_isBound known free]

/-- A request does nothing to a symbol but offer it the binding that is asked for it. -/
theorem get?_serve (known : table.get? id = some symbol) (request : Request) :
    (table.serve request).get? id = some (symbol.offered (request.binding? id)) := by
  cases request with
  | add kind origin source =>
    change (table.add kind origin source).2.get? id = _
    rw [get?_add, if_neg (ne_size_of_get? known), known]
    rfl
  | takeTree => exact known
  | bind other site span =>
    by_cases same : other = id
    · subst same
      have asked : Request.binding? other (.bind other site span) = some (site, span) := if_pos rfl
      cases bound : symbol.isBound with
      | true => rw [serve_bind_of_isBound known bound, known, Symbol.offered_of_isBound bound]
      | false =>
        have inside : other.index < table.symbols.size := lt_size_of_get? known
        rw [serve_bind_of_not_isBound known bound, asked, Symbol.offered_of_not_isBound bound]
        simp [get?, inside]
    · have unasked : Request.binding? id (.bind other site span) = none := if_neg same
      rw [unasked]
      cases knownOther : table.get? other with
      | none => rw [serve_bind_of_unknown knownOther, known, Symbol.offered]
      | some data =>
        cases bound : data.isBound with
        | true => rw [serve_bind_of_isBound knownOther bound, known, Symbol.offered]
        | false =>
          have apart : other.index ≠ id.index := fun index => same (congrArg SymbolId.mk index)
          rw [serve_bind_of_not_isBound knownOther bound, Symbol.offered, ← known]
          exact Array.getElem?_setIfInBounds_ne apart

/-- Requests do nothing to a symbol but offer it the first binding that is asked for it. -/
theorem get?_serveAll (known : table.get? id = some symbol) (requests : List Request) :
    (table.serveAll requests).get? id = some (symbol.offered (firstBinding? requests id)) := by
  induction requests generalizing table symbol with
  | nil => exact known
  | cons request requests ih =>
    have rest := ih (get?_serve known request)
    rw [Symbol.offered_offered, ← firstBinding?_cons] at rest
    exact rest

theorem keeps_serveAll (table : SymbolTable) (requests : List Request) :
    (table.serveAll requests).Keeps table := by
  intro id symbol known
  refine ⟨_, get?_serveAll known requests, ?_, ?_⟩
  · exact symbol.kind_offered _
  · exact symbol.origin_offered _

end Serving

section Numbers

theorem nextTree_serve (table : SymbolTable) (request : Request) :
    (table.serve request).nextTree = table.nextTree + (request.trees table).length := by
  cases request with
  | add kind origin source => rfl
  | takeTree => rfl
  | bind id site span =>
    cases known : table.get? id with
    | none =>
      rw [serve_bind_of_unknown known]
      rfl
    | some symbol =>
      cases bound : symbol.isBound with
      | true =>
        rw [serve_bind_of_isBound known bound]
        rfl
      | false =>
        rw [serve_bind_of_not_isBound known bound]
        rfl

theorem nextTree_serveAll (table : SymbolTable) (requests : List Request) :
    (table.serveAll requests).nextTree = table.nextTree + (table.handedOut requests).length := by
  induction requests generalizing table with
  | nil => rfl
  | cons request requests ih =>
    change ((table.serve request).serveAll requests).nextTree = _
    rw [ih, nextTree_serve, handedOut, List.length_append, Nat.add_assoc]

/-- New trees are numbered from the next number on. -/
theorem handedOut_eq_range' (table : SymbolTable) (requests : List Request) :
    table.handedOut requests =
      (List.range' table.nextTree (table.handedOut requests).length).map TreeId.mk := by
  induction requests generalizing table with
  | nil => rfl
  | cons request requests ih =>
    have rest := ih (table.serve request)
    rw [nextTree_serve] at rest
    rw [handedOut, List.length_append]
    cases request with
    | add kind origin source =>
      rw [Request.trees, List.length_nil, Nat.zero_add, List.nil_append]
      exact rest
    | bind id site span =>
      rw [Request.trees, List.length_nil, Nat.zero_add, List.nil_append]
      exact rest
    | takeTree =>
      rw [Request.trees, List.length_singleton] at rest ⊢
      rw [Nat.add_comm 1, List.range'_succ, List.map_cons, ← rest]
      rfl

theorem nodup_handedOut (table : SymbolTable) (requests : List Request) :
    (table.handedOut requests).Nodup := by
  rw [handedOut_eq_range']
  have distinct : (List.range' table.nextTree (table.handedOut requests).length).Nodup :=
    List.nodup_range'
  exact distinct.map fun first second same => congrArg TreeId.index same

theorem mem_handedOut_iff {table : SymbolTable} {requests : List Request} {tree : TreeId} :
    tree ∈ table.handedOut requests ↔
      table.nextTree ≤ tree.index ∧ tree.index < (table.serveAll requests).nextTree := by
  rw [handedOut_eq_range', List.mem_map, nextTree_serveAll]
  constructor
  · rintro ⟨index, listed, rfl⟩
    exact List.mem_range'_1.1 listed
  · intro between
    exact ⟨tree.index, List.mem_range'_1.2 between, rfl⟩

end Numbers

/-- How the symbols of a table have fared, where the requests have led to the later table: none is
lost or changes its kind or origin, a bound one is left as it was, and another one is bound by the
first request to do so, if there is any, and keeps its source if it has one. No number is given to
two trees, and none that was given before. -/
structure LifeCycle (before : SymbolTable) (requests : List Request) (after : SymbolTable) :
    Prop where
  keeps : after.Keeps before
  bound : ∀ id symbol, before.get? id = some symbol → symbol.isBound = true →
    after.get? id = some symbol
  free : ∀ id symbol, before.get? id = some symbol → symbol.isBound = false →
    (firstBinding? requests id = none ∧ after.get? id = some symbol) ∨
      ∃ site span, firstBinding? requests id = some (site, span) ∧ after.get? id = some
        { symbol with site := some site, source := some (symbol.source.getD span) }
  distinct : (before.handedOut requests).Nodup
  unused : ∀ tree ∈ before.handedOut requests,
    before.nextTree ≤ tree.index ∧ tree.index < after.nextTree

/-- Every symbol of a table lives like that. -/
theorem lifeCycle_serveAll (table : SymbolTable) (requests : List Request) :
    LifeCycle table requests (table.serveAll requests) := by
  refine ⟨keeps_serveAll table requests, ?_, ?_, nodup_handedOut table requests, ?_⟩
  · intro id symbol known bound
    rw [get?_serveAll known, Symbol.offered_of_isBound bound]
  · intro id symbol known free
    have last := get?_serveAll known requests
    cases first : firstBinding? requests id with
    | none =>
      rw [first] at last
      exact .inl ⟨rfl, last⟩
    | some binding =>
      obtain ⟨site, span⟩ := binding
      rw [first, Symbol.offered_of_not_isBound free] at last
      exact .inr ⟨site, span, rfl, last⟩
  · intro tree taken
    exact mem_handedOut_iff.1 taken

/-- The later table is the earlier one after the listed requests, which are of some sort. -/
structure Served (allowed : Request → Prop) (before : SymbolTable) (requests : List Request)
    (after : SymbolTable) : Prop where
  asked : ∀ request ∈ requests, allowed request
  table : after = before.serveAll requests

namespace Served

variable {allowed : Request → Prop} {before middle after table : SymbolTable}
  {requests others : List Request}

theorem refl (allowed : Request → Prop) (table : SymbolTable) : Served allowed table [] table :=
  ⟨(fun _ inside => nomatch inside), rfl⟩

theorem of_request (request : Request) (here : allowed request) :
    Served allowed table [request] (table.serve request) :=
  ⟨fun _ inside => List.mem_singleton.1 inside ▸ here, rfl⟩

theorem trans (first : Served allowed before requests middle)
    (second : Served allowed middle others after) :
    Served allowed before (requests ++ others) after := by
  refine ⟨fun request inside => ?_, ?_⟩
  · rcases List.mem_append.1 inside with inside | inside
    · exact first.asked request inside
    · exact second.asked request inside
  · rw [serveAll_append, ← first.table, second.table]

theorem mono {wider : Request → Prop} (served : Served allowed before requests after)
    (widen : ∀ request, allowed request → wider request) : Served wider before requests after :=
  ⟨fun request inside => widen request (served.asked request inside), served.table⟩

theorem nextTree_le (served : Served allowed before requests after) :
    before.nextTree ≤ after.nextTree := by
  rw [served.table, nextTree_serveAll]
  exact Nat.le_add_right _ _

end Served

/-- Of a placeholder that stands in for another symbol, to claim it is to ask for its binding. -/
theorem claim_eq_serve {table : SymbolTable} {id : SymbolId} {symbol : Symbol}
    (known : table.get? id = some symbol) (standIn : symbol.isStandIn = true) (site : DeclSite)
    (span : Span) : table.claim id site span = table.serve (.bind id site span) := by
  simp only [serve, bind_of_isStandIn known standIn]

/-- The request that is put for the symbol of a copied declaration: one for a placeholder, if the
declaration is transformed and its symbol is known and no class. -/
def replacementRequest? (table : SymbolTable) (old : SymbolId) (transformed : Bool) :
    Option Request :=
  if transformed then
    (table.get? old).bind fun symbol =>
      if symbol.kind = .cls then none
      else some (.add symbol.kind .placeholder symbol.standIn.source)
  else none

theorem replacementRequest?_of_class {table : SymbolTable} {old : SymbolId} {symbol : Symbol}
    (known : table.get? old = some symbol) (isClass : symbol.kind = .cls) (transformed : Bool) :
    table.replacementRequest? old transformed = none := by
  cases transformed <;> simp [replacementRequest?, known, isClass]

theorem exists_of_replacementRequest?_eq_some {table : SymbolTable} {old : SymbolId}
    {transformed : Bool} {request : Request}
    (asked : table.replacementRequest? old transformed = some request) :
    ∃ kind source, request = .add kind .placeholder source := by
  rw [replacementRequest?] at asked
  split at asked
  · obtain ⟨symbol, -, asked⟩ := Option.bind_eq_some_iff.1 asked
    split at asked
    · exact nomatch asked
    · exact ⟨_, _, (Option.some.inj asked).symm⟩
  · exact nomatch asked

/-- To replace a symbol is to put that request, and it is only an error where none is put. -/
theorem replacementFor_cases (table : SymbolTable) (old : SymbolId) (transformed : Bool) :
    (∃ error, table.replacementFor old transformed = .error error ∧
      table.replacementRequest? old transformed = none) ∨
    ∃ new, table.replacementFor old transformed =
      .ok (new, table.serveAll (table.replacementRequest? old transformed).toList) := by
  cases transformed with
  | false => exact .inr ⟨old, table.replacementFor_untransformed old⟩
  | true =>
    cases known : table.get? old with
    | none =>
      refine .inl ⟨.unknown old, ?_, ?_⟩
      · simp [replacementFor, SymbolTable.get, known, Except.map]
      · simp [replacementRequest?, known]
    | some symbol =>
      by_cases isClass : symbol.kind = .cls
      · rw [replacementRequest?_of_class known isClass]
        exact .inr ⟨old, replacementFor_class known isClass⟩
      · have asked : table.replacementRequest? old true =
            some (.add symbol.kind .placeholder symbol.standIn.source) := by
          simp [replacementRequest?, known, isClass]
        rw [asked]
        exact .inr ⟨_, replacementFor_of_replaceable known isClass⟩

end SymbolTable

end Relabel
