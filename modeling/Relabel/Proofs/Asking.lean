import Relabel.Proofs.Symbol.Requests
import Relabel.Proofs.TableInvariant

namespace Relabel

open SymbolTable (Request Served)

variable {σ τ α : Type}

namespace Pass

/-- Notes down the requests that a pass puts to the table, and runs it. -/
def noting (requests : σ → List Request) (pass : Pass σ α) : Pass (σ × List Request) α := do
  modify fun (state, log) => (state, log ++ requests state)
  aside pass

variable {requests : σ → List Request} {pass : Pass σ α}

theorem accord_noting (requests : σ → List Request) (pass : Pass σ α) :
    Accord Logging pass (noting requests pass) := by
  rintro _ ⟨state, log⟩ rfl
  exact accord_aside pass state (state, log ++ requests state) rfl

theorem stateAfter_noting (requests : σ → List Request) (pass : Pass σ α) (state : σ)
    (log : List Request) : (noting requests pass).stateAfter (state, log) =
      (pass.stateAfter state, log ++ requests state) := by
  have noted : (noting requests pass).stateAfter (state, log) =
      (aside pass).stateAfter (state, log ++ requests state) := rfl
  rw [noted, aside, stateAfter_within]

theorem run_noting_of_ok {state after : σ} {value : α} (run : pass.run state = .ok value after)
    (log : List Request) : (noting requests pass).run (state, log) =
      .ok value (after, log ++ requests state) :=
  run_aside_eq_ok_iff.2 ⟨run, rfl⟩

theorem Accord.stateAfter {R : σ → τ → Prop} {p : Pass σ α} {q : Pass τ α} (accord : Accord R p q)
    {s : σ} {t : τ} (related : R s t) : R (p.stateAfter s) (q.stateAfter t) := by
  have ends := accord s t related
  rw [Pass.stateAfter, Pass.stateAfter]
  generalize p.run s = r at ends
  generalize q.run t = u at ends
  cases ends with
  | ok after => exact after.2
  | error after => exact after

/-- A pass that changes the table by the requests that are noted down keeps log and table in step. -/
theorem maintains_noting {allowed : Request → Prop} {before : SymbolTable} {table : σ → SymbolTable}
    (served : ∀ state, Served allowed (table state) (requests state) (table (pass.stateAfter state))) :
    Maintains (fun logged => Served allowed before logged.2 (table logged.1))
      (noting requests pass) := by
  intro ⟨state, log⟩ holds
  rw [stateAfter_noting]
  exact holds.trans (served state)

end Pass

/-- A chooser that does nothing to the symbol table but put requests to it. -/
structure Chooser.Requesting (σ : Type) where
  choose : Chooser σ
  requests : DeclId → SymbolId → SymbolTable × σ → List Request
  served : ∀ id old state,
    ((choose id old).stateAfter state).1 = state.1.serveAll (requests id old state)

namespace Chooser

theorem serveAll_of_replace (old : SymbolId) (transformed : Bool) (state : SymbolTable × σ) :
    ((replace old transformed).stateAfter state).1 =
      state.1.serveAll (state.1.replacementRequest? old transformed).toList := by
  obtain ⟨table, memory⟩ := state
  rcases replace_run_cases old transformed table memory with
    ⟨error, failed⟩ | ⟨new, after, done, replacement⟩
  · rw [Pass.stateAfter_of_error failed]
    rcases table.replacementFor_cases old transformed with ⟨_, -, unasked⟩ | ⟨new, replacement⟩
    · rw [unasked]
      rfl
    · rw [replace_run_eq_ok_iff.2 ⟨replacement, rfl⟩] at failed
      exact nomatch failed
  · rw [Pass.stateAfter_of_ok done]
    rcases table.replacementFor_cases old transformed with ⟨_, refused, -⟩ | ⟨_, served⟩
    · rw [refused] at replacement
      exact nomatch replacement
    · rw [served] at replacement
      exact (congrArg Prod.snd (Except.ok.inj replacement)).symm

namespace Requesting

/-- It puts no requests. -/
def keep : Requesting σ where
  choose := .keep
  requests _ _ _ := []
  served _ _ _ := rfl

/-- It puts no requests. -/
def assign (choices : List (DeclId × SymbolId)) : Requesting σ where
  choose := .assign choices
  requests _ _ _ := []
  served _ _ _ := rfl

def listed (decls : List DeclId) : Requesting σ where
  choose := .listed decls
  requests id old state := (state.1.replacementRequest? old (decls.contains id)).toList
  served id old state := serveAll_of_replace old (decls.contains id) state

/-- The request that the verdict on a declaration leads to, if there is one. -/
def verdictRequest? (judge : Judge) (id : DeclId) (old : SymbolId)
    (state : SymbolTable × Judge.Memory) : Option Request :=
  match (judge.verdict state.1 id).run state.2 with
  | .ok transformed _ => state.1.replacementRequest? old transformed
  | .error .. => none

theorem exists_of_verdictRequest?_eq_some {judge : Judge} {id : DeclId} {old : SymbolId}
    {state : SymbolTable × Judge.Memory} {request : Request}
    (asked : verdictRequest? judge id old state = some request) :
    ∃ kind source, request = .add kind .placeholder source := by
  rw [verdictRequest?] at asked
  split at asked
  · exact SymbolTable.exists_of_replacementRequest?_eq_some asked
  · exact nomatch asked

theorem serveAll_of_selective (judge : Judge) (id : DeclId) (old : SymbolId)
    (state : SymbolTable × Judge.Memory) : ((Chooser.selective judge id old).stateAfter state).1 =
      state.1.serveAll (verdictRequest? judge id old state).toList := by
  obtain ⟨table, memory⟩ := state
  have read : (get : Pass (SymbolTable × Judge.Memory) _).run (table, memory) =
      .ok (table, memory) (table, memory) := rfl
  rw [Chooser.selective, Pass.stateAfter_bind_of_ok read, verdictRequest?]
  dsimp only
  cases judged : (judge.verdict table id).run memory with
  | ok transformed after =>
    rw [Pass.stateAfter_bind_of_ok (Pass.run_within_eq_ok_iff.2 ⟨after, judged, rfl⟩)]
    exact serveAll_of_replace old transformed (table, after)
  | error error after =>
    rw [Pass.stateAfter_bind_of_error (Pass.run_within_eq_error_iff.2 ⟨after, judged, rfl⟩)]
    rfl

/-- It asks for placeholders as the judge's verdicts want them. -/
def selective (judge : Judge) : Requesting Judge.Memory where
  choose := .selective judge
  requests id old state := (verdictRequest? judge id old state).toList
  served := serveAll_of_selective judge

/-- The same chooser, which keeps a log of its requests besides. -/
def noting (chooser : Requesting σ) : Chooser (σ × List Request) := fun id old =>
  Pass.within (fun (table, memory, log) => ((table, memory), log))
    (fun ((table, memory), log) _ => (table, memory, log))
    (Pass.noting (chooser.requests id old) (chooser.choose id old))

theorem accord_noting (chooser : Requesting σ) (id : DeclId) (old : SymbolId) :
    Pass.Accord (fun state logged => state.1 = logged.1 ∧ Pass.Logging state.2 logged.2)
      (chooser.choose id old) (chooser.noting id old) := by
  intro state ⟨table, memory, log⟩ related
  obtain rfl : state = (table, memory) := Prod.ext related.1 related.2.symm
  have ends := Pass.accord_noting (chooser.requests id old) (chooser.choose id old)
    (table, memory) ((table, memory), log) rfl
  rw [noting, Pass.run_within]
  generalize (chooser.choose id old).run (table, memory) = r at ends ⊢
  generalize (Pass.noting _ (chooser.choose id old)).run _ = q at ends ⊢
  cases ends with
  | ok after =>
    obtain ⟨rfl, rfl⟩ := after
    exact .ok ⟨rfl, rfl, rfl⟩
  | error after =>
    obtain rfl := after
    exact .error ⟨rfl, rfl⟩

theorem maintains_noting (chooser : Requesting σ) {allowed : Request → Prop} {before : SymbolTable}
    {id : DeclId} {old : SymbolId}
    (asks : ∀ state, ∀ request ∈ chooser.requests id old state, allowed request) :
    Pass.Maintains (fun logged => Served allowed before logged.2.2 logged.1)
      (chooser.noting id old) := by
  have inner : Pass.Maintains (fun logged : (SymbolTable × σ) × List Request =>
      Served allowed before logged.2 logged.1.1)
      (Pass.noting (chooser.requests id old) (chooser.choose id old)) :=
    Pass.maintains_noting fun state => ⟨asks state, chooser.served id old state⟩
  exact inner.within (fun _ holds => holds) fun _ _ _ holds => holds

end Requesting

end Chooser

/-- States of a copy that differ in nothing but what their choosers remember. -/
structure CopyState.Agree (R : σ → τ → Prop) (s : CopyState σ) (t : CopyState τ) : Prop where
  symbols : s.symbols = t.symbols
  memory : R s.memory t.memory
  asked : s.asked = t.asked

section Choosers

variable {R : σ → τ → Prop} {choose : Chooser σ} {choose' : Chooser τ}
  (chosen : ∀ id old, Pass.Accord (fun s t => s.1 = t.1 ∧ R s.2 t.2) (choose id old) (choose' id old))

include chosen

theorem Chooser.accord_entry (owners : List (SymbolId × DeclId)) (old : SymbolId) :
    Pass.Accord (CopyState.Agree R) (choose.entry owners old) (choose'.entry owners old) := by
  have settled : Pass.Accord (CopyState.Agree R) (choose.settle owners old)
      (choose'.settle owners old) := by
    unfold settle
    cases owners.lookup old with
    | none => exact .pure old
    | some id =>
      have noted : Pass.Accord (CopyState.Agree R)
          (modify fun state : CopyState σ => { state with asked := (id, old) :: state.asked })
          (modify fun state : CopyState τ => { state with asked := (id, old) :: state.asked }) := by
        intro s t agree
        exact .ok ⟨rfl, agree.symbols, agree.memory, congrArg _ agree.asked⟩
      refine noted.bind fun _ => (chosen id old).within ?_ ?_
      · intro s t agree
        exact ⟨agree.symbols, agree.memory⟩
      · intro s t s' t' agree both
        exact ⟨both.1, both.2, agree.asked⟩
  exact settled.bind fun new => .pure (old, new)

/-- Choosers that agree make copies that agree. -/
theorem DeclTree.accord_copyWith (tree : DeclTree) :
    Pass.Accord (CopyState.Agree R) (tree.copyWith choose) (tree.copyWith choose') := by
  rw [copyWith_eq_copyListed, copyWith_eq_copyListed]
  refine Pass.Accord.bind (.ofExcept _ _) fun owners => ?_
  have taken : Pass.Accord (CopyState.Agree R) CopyState.takeTree CopyState.takeTree := by
    intro s t agree
    refine .ok ⟨?_, ?_, agree.memory, agree.asked⟩
    · rw [agree.symbols]
    · simp only [agree.symbols]
  refine taken.bind fun id => Pass.Accord.bind (.mapM fun old _ => ?_) fun entries => .pure _
  exact Chooser.accord_entry chosen owners old

end Choosers

namespace DeclTree

section Copying

/-- The requests that a copy puts to the table. -/
def copyRequests (tree : DeclTree) (chooser : Chooser.Requesting σ) (table : SymbolTable)
    (memory : σ) : List Request :=
  match tree.declared with
  -- The number is taken before any symbol is chosen, so that the log begins with it.
  | .ok _ => ((tree.copyWith chooser.noting).stateAfter
      { symbols := table, memory := (memory, [.takeTree]) }).memory.2
  | .error _ => []

variable {tree : DeclTree}

theorem served_of_copyWith (tree : DeclTree) (chooser : Chooser.Requesting σ) (table : SymbolTable)
    (memory : σ) {allowed : Request → Prop} (taking : allowed .takeTree)
    (asks : ∀ id old state, ∀ request ∈ chooser.requests id old state, allowed request) :
    Served allowed table (tree.copyRequests chooser table memory)
      ((tree.copyWith chooser.choose).stateAfter { symbols := table, memory }).symbols := by
  let plain : CopyState σ := { symbols := table, memory }
  let logged : CopyState (σ × List Request) := { symbols := table, memory := (memory, [.takeTree]) }
  have agree : CopyState.Agree Pass.Logging plain logged := ⟨rfl, rfl, rfl⟩
  have ends := (tree.accord_copyWith chooser.accord_noting).stateAfter agree
  change Served allowed _ _ ((tree.copyWith chooser.choose).stateAfter plain).symbols
  rw [copyRequests, ends.symbols]
  cases declared : tree.declared with
  | error error =>
    have refused : (tree.copyWith chooser.noting).stateAfter logged = logged := by
      rw [copyWith, declared]
      rfl
    rw [refused]
    exact .refl _ table
  | ok owners =>
    have refused (error : PassError) (failed : tree.declared = .error error) :
        Served allowed table [.takeTree] table := by
      rw [declared] at failed
      cases failed
    exact maintained_of_copyWith refused (.of_request .takeTree taking) fun id old =>
      chooser.maintains_noting (asks id old)

/-- With a chooser that asks for nothing, a copy asks for nothing but its number. -/
theorem copyRequests_of_silent {chooser : Chooser.Requesting σ}
    (silent : ∀ id old state, chooser.requests id old state = [])
    {owners : List (SymbolId × DeclId)} (declared : tree.declared = .ok owners) (table : SymbolTable)
    (memory : σ) : tree.copyRequests chooser table memory = [.takeTree] := by
  have inner (id : DeclId) (old : SymbolId) : Pass.Maintains
      (fun logged : (SymbolTable × σ) × List Request => logged.2 = [.takeTree])
      (Pass.noting (chooser.requests id old) (chooser.choose id old)) := by
    intro ⟨state, log⟩ unlogged
    rw [Pass.stateAfter_noting, silent, List.append_nil]
    exact unlogged
  rw [copyRequests, declared]
  exact @maintained_of_copyWith _ (fun logged => logged.2.2 = [.takeTree]) tree chooser.noting
    { symbols := table, memory := (memory, [.takeTree]) } (fun _ _ => rfl) rfl fun id old =>
      (inner id old).within (fun _ unlogged => unlogged) fun _ _ _ unlogged => unlogged

end Copying

section Binding

/-- The request that binding puts for a declaration: one, if it owns a placeholder, bound or not, that
its form admits. -/
def ownerRequest? (tree : DeclTree) (table : SymbolTable) (id : DeclId) : Option Request :=
  (tree.get? id).bind fun decl => (table.get? decl.symbol).bind fun symbol =>
    if symbol.isStandIn && decl.form.admits symbol.kind then
      some (.bind decl.symbol ⟨tree.id, id⟩ decl.span)
    else none

/-- Binds the symbol of a declaration and notes down the request for that. -/
def bindOwnerNoting (tree : DeclTree) (id : DeclId) :
    Pass ((SymbolTable × BindingStats) × List Request) Unit :=
  Pass.noting (fun (table, _) => (tree.ownerRequest? table id).toList) (tree.bindOwner id)

/-- The requests that binding puts to the table. -/
def bindRequests (tree : DeclTree) (table : SymbolTable) : List Request :=
  ((tree.walkAll tree.bindOwnerNoting).stateAfter ((table, {}), [])).2

variable {tree : DeclTree} {table : SymbolTable} {id : DeclId}

theorem ownerRequest?_of_get? {decl : Decl} {symbol : Symbol} (found : tree.get? id = some decl)
    (known : table.get? decl.symbol = some symbol) : tree.ownerRequest? table id =
      if symbol.isStandIn && decl.form.admits symbol.kind then
        some (.bind decl.symbol ⟨tree.id, id⟩ decl.span)
      else none := by
  rw [ownerRequest?, found, Option.bind_some, known, Option.bind_some]

theorem ownerRequest?_eq_some_iff {request : Request} :
    tree.ownerRequest? table id = some request ↔
      ∃ decl symbol, tree.get? id = some decl ∧ table.get? decl.symbol = some symbol ∧
        symbol.isStandIn = true ∧ decl.form.admits symbol.kind = true ∧
        request = .bind decl.symbol ⟨tree.id, id⟩ decl.span := by
  simp only [ownerRequest?, Option.bind_eq_some_iff, Option.ite_none_right_eq_some, Bool.and_eq_true,
    Option.some.injEq, and_assoc, eq_comm (a := request)]
  constructor
  · rintro ⟨decl, found, symbol, known, standIn, admits, same⟩
    exact ⟨decl, symbol, found, known, standIn, admits, same⟩
  · rintro ⟨decl, symbol, found, known, standIn, admits, same⟩
    exact ⟨decl, found, symbol, known, standIn, admits, same⟩

/-- Binding one declaration does to the table what its request does, and counts the request. -/
theorem bindOwner_asks (tree : DeclTree) (id : DeclId) (table : SymbolTable) (stats : BindingStats) :
    ∃ last, (tree.bindOwner id).stateAfter (table, stats) =
      (table.serveAll (tree.ownerRequest? table id).toList, last) ∧
      last.bound + last.alreadyBound =
        stats.bound + stats.alreadyBound + (tree.ownerRequest? table id).toList.length := by
  rcases tree.bindOwner_run_cases id table stats with
    ⟨error, failed⟩ | ⟨decl, symbol, found, known, admitted, done⟩
  · have unasked : tree.ownerRequest? table id = none := by
      rw [Option.eq_none_iff_forall_ne_some]
      intro request asked
      obtain ⟨decl, symbol, found, known, -, admits, -⟩ := ownerRequest?_eq_some_iff.1 asked
      have fine : ¬(symbol.isStandIn = true ∧ decl.form.admits symbol.kind = false) := by
        simp [admits]
      rw [bindOwner_run found known, if_neg fine] at failed
      exact nomatch failed
    rw [Pass.stateAfter_of_error failed, unasked]
    exact ⟨stats, rfl, rfl⟩
  · rw [Pass.stateAfter_of_ok done, ownerRequest?_of_get? found known]
    refine ⟨stats.counting symbol, ?_, ?_⟩
    · cases standIn : symbol.isStandIn with
      | false =>
        rw [SymbolTable.claim_of_fixed known (Symbol.claimedAt_of_not_isStandIn standIn _ _)]
        rfl
      | true =>
        rw [admitted standIn, SymbolTable.claim_eq_serve known standIn]
        rfl
    · cases standIn : symbol.isStandIn with
      | false => simp [BindingStats.counting, standIn]
      | true =>
        rw [admitted standIn]
        cases bound : symbol.isBound <;> simp [BindingStats.counting, standIn, bound] <;> omega

theorem accord_bindOwnerNoting (tree : DeclTree) :
    Pass.Accord Pass.Logging (tree.walkAll tree.bindOwner) (tree.walkAll tree.bindOwnerNoting) :=
  .walkAll fun _ => Pass.accord_noting _ _

/-- Binding changes the table by the requests of the declarations under the roots. -/
theorem served_of_bindPlaceholders (tree : DeclTree) (table : SymbolTable)
    {allowed : Request → Prop}
    (asks : ∀ id decl, tree.Reachable id → tree.get? id = some decl →
      allowed (.bind decl.symbol ⟨tree.id, id⟩ decl.span)) :
    Served allowed table (tree.bindRequests table) (tree.bindPlaceholders.stateAfter table) := by
  have noted : Pass.Maintains (fun logged => Served allowed table logged.2 logged.1.1)
      (tree.walkAll tree.bindOwnerNoting) := by
    refine .walkAll fun id reached => Pass.maintains_noting fun state => ⟨?_, ?_⟩
    · intro request asked
      obtain ⟨decl, symbol, found, -, -, -, rfl⟩ :=
        ownerRequest?_eq_some_iff.1 (Option.mem_toList.1 asked)
      exact asks id decl reached found
    · obtain ⟨last, done, -⟩ := tree.bindOwner_asks id state.1 state.2
      rw [done]
  have same := tree.accord_bindOwnerNoting.stateAfter (rfl : Pass.Logging (table, {}) (_, []))
  rw [stateAfter_bindPlaceholders, ← same]
  exact noted ((table, {}), []) (.refl allowed table)

/-- To claim a symbol changes nothing about what binding asks for. -/
theorem ownerRequest?_claim {claimed : SymbolId} {data : Symbol}
    (here : table.get? claimed = some data) (site : DeclSite) (span : Span) (id : DeclId) :
    tree.ownerRequest? (table.claim claimed site span) id = tree.ownerRequest? table id := by
  refine Option.bind_congr fun decl _ => ?_
  rw [SymbolTable.get?_claim here]
  split
  · next same =>
    rw [same, here, Option.bind_some, Option.bind_some, Symbol.isStandIn_claimedAt,
      Symbol.kind_claimedAt]
  · rfl

theorem forM_bindOwnerNoting {ids : List DeclId} {before after : SymbolTable}
    {stats last : BindingStats}
    (run : (ids.forM tree.bindOwner).run (before, stats) = .ok () (after, last))
    (log : List Request) : (ids.forM tree.bindOwnerNoting).stateAfter ((before, stats), log) =
      ((after, last), log ++ ids.filterMap (tree.ownerRequest? before)) := by
  induction ids generalizing before stats log with
  | nil =>
    cases run
    rw [List.filterMap_nil, List.append_nil]
    rfl
  | cons id ids ih =>
    obtain ⟨decl, symbol, found, known, admitted, rest⟩ :=
      forM_bindOwner_cons_run_eq_ok_iff.1 run
    have first : (tree.bindOwner id).run (before, stats) =
        .ok () (before.claim decl.symbol ⟨tree.id, id⟩ decl.span, stats.counting symbol) :=
      bindOwner_run_eq_ok_iff.2 ⟨decl, symbol, found, known, admitted, rfl, rfl⟩
    have noted : (tree.bindOwnerNoting id).run ((before, stats), log) = .ok () (_, _) :=
      Pass.run_noting_of_ok first log
    have unchanged : tree.ownerRequest? (before.claim decl.symbol ⟨tree.id, id⟩ decl.span) =
        tree.ownerRequest? before := funext (ownerRequest?_claim known _ _)
    have later := ih rest (log ++ (tree.ownerRequest? before id).toList)
    rw [List.forM_eq_forM] at later ⊢
    rw [List.forM_cons, Pass.stateAfter_bind_of_ok noted, later, unchanged, List.append_assoc,
      List.filterMap_eq_flatMap_toList, List.filterMap_eq_flatMap_toList, List.flatMap_cons]

/-- Where binding succeeds, it has put its requests in the order of a walk. -/
theorem bindRequests_of_run {stats : BindingStats} {after : SymbolTable}
    (run : tree.bindPlaceholders.run table = .ok stats after) :
    tree.bindRequests table = tree.preorder.filterMap (tree.ownerRequest? table) := by
  obtain ⟨fits, binding⟩ := bindPlaceholders_run_eq_ok_iff.1 run
  rw [bindRequests, walkAll_of_fits fits, forM_bindOwnerNoting binding, List.nil_append]

/-- Each request has been counted. -/
theorem length_bindRequests {stats : BindingStats} {after : SymbolTable}
    (run : tree.bindPlaceholders.run table = .ok stats after) :
    (tree.bindRequests table).length = stats.bound + stats.alreadyBound := by
  have counted : Pass.Maintains (fun logged : (SymbolTable × BindingStats) × List Request =>
      logged.2.length = logged.1.2.bound + logged.1.2.alreadyBound)
      (tree.walkAll tree.bindOwnerNoting) := by
    refine .walkAll fun id _ => ?_
    intro ⟨⟨before, stats⟩, log⟩ holds
    obtain ⟨last, done, more⟩ := tree.bindOwner_asks id before stats
    rw [bindOwnerNoting, Pass.stateAfter_noting, done, List.length_append, holds, more]
  have ended : (tree.walkAll tree.bindOwner).stateAfter (table, {}) = (after, stats) := by
    obtain ⟨fits, binding⟩ := bindPlaceholders_run_eq_ok_iff.1 run
    exact Pass.stateAfter_of_ok (walkAll_run_eq_ok_iff.2 ⟨fits, binding⟩)
  have same := tree.accord_bindOwnerNoting.stateAfter (rfl : Pass.Logging (table, {}) (_, []))
  have last := counted ((table, {}), []) rfl
  rw [Pass.Logging, ended] at same
  rw [same] at last
  exact last

end Binding

end DeclTree

end Relabel
