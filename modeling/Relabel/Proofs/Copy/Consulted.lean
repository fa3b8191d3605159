import Relabel.Proofs.Copy.Selective
import Relabel.Proofs.Copy.Termination

namespace Relabel

variable {σ : Type}

namespace Chooser

/-- A choice that was asked for: the declaration, the symbol that it was asked with, and the answer. -/
structure Call where
  decl : DeclId
  old : SymbolId
  new : SymbolId

def Call.question (call : Call) : DeclId × SymbolId := (call.decl, call.old)

/-- The calls that lead from one state to another, oldest first. Nothing else happens to the state. -/
inductive Answers (choose : Chooser σ) : CopyState σ → List Call → CopyState σ → Prop where
  | none (state : CopyState σ) : Answers choose state [] state
  | ask {before middle after : CopyState σ} {call : Call} {calls : List Call}
    (asked : (choose.ask call.decl call.old).run before = .ok call.new middle)
    (rest : Answers choose middle calls after) : Answers choose before (call :: calls) after

/-- The choices that settling some symbols asks for: one for each symbol that is declared under the
roots. -/
def questions (owners : List (SymbolId × DeclId)) (symbols : List SymbolId) :
    List (DeclId × SymbolId) :=
  symbols.filterMap fun old => (owners.lookup old).map fun id => (id, old)

/-- Those entries that a choice was asked for. -/
def answered (owners : List (SymbolId × DeclId)) (entries : List (SymbolId × SymbolId)) : List Call :=
  entries.filterMap fun (old, new) => (owners.lookup old).map fun id => ⟨id, old, new⟩

variable {choose : Chooser σ} {owners : List (SymbolId × DeclId)}

theorem Answers.asked {before after : CopyState σ} {calls : List Call}
    (answers : choose.Answers before calls after) :
    after.asked = (calls.map Call.question).reverse ++ before.asked := by
  induction answers with
  | none state => rfl
  | ask asked rest ih =>
    obtain ⟨symbols, memory, -, rfl⟩ := ask_run_eq_ok_iff.1 asked
    rw [ih, List.map_cons, List.reverse_cons, List.append_assoc]
    rfl

theorem questions_cons_of_foreign {old : SymbolId} (foreign : owners.lookup old = none)
    (symbols : List SymbolId) : questions owners (old :: symbols) = questions owners symbols := by
  simp [questions, foreign]

theorem questions_cons_of_owned {old : SymbolId} {id : DeclId} (owned : owners.lookup old = some id)
    (symbols : List SymbolId) :
    questions owners (old :: symbols) = (id, old) :: questions owners symbols := by
  simp [questions, owned]

theorem mem_questions_iff {symbols : List SymbolId} {id : DeclId} {old : SymbolId} :
    (id, old) ∈ questions owners symbols ↔ old ∈ symbols ∧ owners.lookup old = some id := by
  simp only [questions, List.mem_filterMap, Option.map_eq_some_iff, Prod.mk.injEq]
  constructor
  · rintro ⟨old, inside, id, owned, rfl, rfl⟩
    exact ⟨inside, owned⟩
  · rintro ⟨inside, owned⟩
    exact ⟨old, inside, id, owned, rfl, rfl⟩

theorem mem_answered_iff {entries : List (SymbolId × SymbolId)} {call : Call} :
    call ∈ answered owners entries ↔
      (call.old, call.new) ∈ entries ∧ owners.lookup call.old = some call.decl := by
  simp only [answered, List.mem_filterMap, Option.map_eq_some_iff]
  constructor
  · rintro ⟨⟨old, new⟩, listed, id, owned, rfl⟩
    exact ⟨listed, owned⟩
  · rintro ⟨listed, owned⟩
    exact ⟨(call.old, call.new), listed, call.decl, owned, rfl⟩

/-- What was asked for depends on the keys of the entries only. -/
theorem map_question_answered (entries : List (SymbolId × SymbolId)) :
    (answered owners entries).map Call.question = questions owners (entries.map Prod.fst) := by
  rw [answered, questions, List.map_filterMap, List.filterMap_map]
  refine congrArg (List.filterMap · entries) (funext fun entry => ?_)
  cases owner : owners.lookup entry.1 <;> simp [owner, Call.question]

/-- Settling symbols calls the chooser for those that are declared under the roots and leaves the
state alone otherwise. -/
theorem answers_of_entries {symbols : List SymbolId} {entries : List (SymbolId × SymbolId)}
    {before after : CopyState σ}
    (run : (symbols.mapM (choose.entry owners)).run before = .ok entries after) :
    choose.Answers before (answered owners entries) after := by
  induction symbols generalizing entries before with
  | nil =>
    obtain ⟨rfl, rfl⟩ := EStateM.Result.ok.inj run
    exact .none before
  | cons old symbols ih =>
    obtain ⟨new, rest, middle, settled, others, rfl⟩ := mapM_entry_cons_run run
    cases owner : owners.lookup old with
    | none =>
      obtain ⟨-, rfl⟩ := settle_run_of_foreign owner settled
      have skipped : answered owners ((old, new) :: rest) = answered owners rest := by
        simp [answered, owner]
      rw [skipped]
      exact ih others
    | some id =>
      have called : answered owners ((old, new) :: rest) = ⟨id, old, new⟩ :: answered owners rest := by
        simp [answered, owner]
      simp only [settle, owner] at settled
      rw [called]
      exact .ask settled (ih others)

/-- Where the chooser fails, it has been asked for some of the choices, in their order. -/
theorem asked_of_entries_error {symbols : List SymbolId} {before after : CopyState σ}
    {error : PassError} (run : (symbols.mapM (choose.entry owners)).run before = .error error after) :
    ∃ calls, calls <+: questions owners symbols ∧ after.asked = calls.reverse ++ before.asked := by
  induction symbols generalizing before with
  | nil => cases run
  | cons old symbols ih =>
    cases owner : owners.lookup old with
    | none =>
      rw [questions_cons_of_foreign owner]
      rcases mapM_entry_cons_error run with failed | ⟨new, middle, settled, others⟩
      · simp only [settle, owner] at failed
        cases failed
      · obtain ⟨-, rfl⟩ := settle_run_of_foreign owner settled
        exact ih others
    | some id =>
      rw [questions_cons_of_owned owner]
      rcases mapM_entry_cons_error run with failed | ⟨new, middle, settled, others⟩
      · simp only [settle, owner] at failed
        obtain ⟨symbols', memory, -, rfl⟩ := ask_run_eq_error_iff.1 failed
        exact ⟨[(id, old)], (List.prefix_cons_inj _).2 List.nil_prefix, rfl⟩
      · simp only [settle, owner] at settled
        obtain ⟨symbols', memory, -, rfl⟩ := ask_run_eq_ok_iff.1 settled
        obtain ⟨calls, listed, asked⟩ := ih others
        refine ⟨(id, old) :: calls, (List.prefix_cons_inj _).2 listed, ?_⟩
        rw [asked, List.reverse_cons, List.append_assoc]
        rfl

theorem stays_of_entries {symbols : List SymbolId} {entries : List (SymbolId × SymbolId)}
    {before after : CopyState σ} {old new : SymbolId}
    (run : (symbols.mapM (choose.entry owners)).run before = .ok entries after)
    (foreign : owners.lookup old = none) (listed : (old, new) ∈ entries) : new = old := by
  induction symbols generalizing entries before with
  | nil =>
    obtain ⟨rfl, -⟩ := EStateM.Result.ok.inj run
    exact nomatch listed
  | cons first symbols ih =>
    obtain ⟨place, rest, middle, settled, others, rfl⟩ := mapM_entry_cons_run run
    rcases List.mem_cons.1 listed with here | later
    · obtain ⟨rfl, rfl⟩ := Prod.mk.inj here
      exact (settle_run_of_foreign foreign settled).1
    · exact ih others later

end Chooser

namespace DeclTree

variable {tree : DeclTree} {choose : Chooser σ} {before after : CopyState σ} {copy : Copy}
  {owners : List (SymbolId × DeclId)}

/-- A declaration owns one symbol only, so that no symbols ask for it twice. -/
theorem Indexed.nodup_questions (indexed : tree.Indexed owners) {symbols : List SymbolId}
    (distinct : symbols.Nodup) : ((Chooser.questions owners symbols).map Prod.fst).Nodup := by
  have decls : (Chooser.questions owners symbols).map Prod.fst =
      symbols.filterMap fun old => owners.lookup old := by
    rw [Chooser.questions, List.map_filterMap]
    simp [Option.map_map, Function.comp_def]
  rw [decls]
  refine distinct.filterMap fun first second id one other => ?_
  obtain ⟨-, decl, found, rfl⟩ := (indexed.lookup first id).1 one
  obtain ⟨-, same, foundSame, rfl⟩ := (indexed.lookup second id).1 other
  rw [Option.some.inj (found.symm.trans foundSame)]

/-- The choices for all symbols in use are one for each declaration under the roots. -/
theorem Indexed.mem_questions_iff (indexed : tree.Indexed owners) {id : DeclId} {old : SymbolId} :
    (id, old) ∈ Chooser.questions owners tree.symbolsInUse.eraseDups ↔
      tree.Reachable id ∧ ∃ decl, tree.get? id = some decl ∧ decl.symbol = old := by
  rw [Chooser.mem_questions_iff, indexed.lookup, List.mem_eraseDups, mem_symbolsInUse_iff indexed.fits]
  constructor
  · intro both
    exact both.2
  · intro owner
    obtain ⟨reached, decl, found, rfl⟩ := owner
    exact ⟨⟨id, reached, decl, found, List.mem_cons_self⟩, reached, decl, found, rfl⟩

/-- The calls of a copy that succeeds: one for each declaration under the roots, with the symbol that
it owns. The symbols that stand in these declarations are the keys of the substitution. A declaration
has what was chosen for it, and what is not declared under the roots stays. -/
structure Consulted (tree : DeclTree) (choose : Chooser σ) (before after : CopyState σ) (copy : Copy)
    (calls : List Chooser.Call) : Prop where
  answers : choose.Answers { before with symbols := before.symbols.takeTree.2 } calls after
  asked : after.asked = (calls.map Chooser.Call.question).reverse ++ before.asked
  once : (calls.map Chooser.Call.decl).Nodup
  decls : ∀ id, id ∈ calls.map Chooser.Call.decl ↔ tree.Reachable id
  own : ∀ call ∈ calls, ∃ decl, tree.get? call.decl = some decl ∧ decl.symbol = call.old
  distinct : (copy.substitution.entries.map Prod.fst).Nodup
  keys : ∀ symbol, symbol ∈ copy.substitution.entries.map Prod.fst ↔
    ∃ id decl, tree.Reachable id ∧ tree.get? id = some decl ∧ symbol ∈ decl.symbols
  chosen : ∀ call ∈ calls, copy.substitution.get? call.old = some call.new
  stays : ∀ symbol new, copy.substitution.get? symbol = some new →
    (∀ id decl, tree.Reachable id → tree.get? id = some decl → decl.symbol ≠ symbol) → new = symbol

theorem Copied.consulted (copied : tree.Copied choose before copy after owners) :
    tree.Consulted choose before after copy
      (Chooser.answered owners copy.substitution.entries) := by
  have answers := Chooser.answers_of_entries copied.entries
  have questions : (Chooser.answered owners copy.substitution.entries).map Chooser.Call.question =
      Chooser.questions owners tree.symbolsInUse.eraseDups := by
    rw [Chooser.map_question_answered, copied.keys]
  have decls : (Chooser.answered owners copy.substitution.entries).map Chooser.Call.decl =
      (Chooser.questions owners tree.symbolsInUse.eraseDups).map Prod.fst := by
    rw [← questions, List.map_map]
    rfl
  have entry {old new : SymbolId} : copy.substitution.get? old = some new ↔
      (old, new) ∈ copy.substitution.entries := lookup_eq_some_iff_mem copied.distinct
  refine ⟨answers, answers.asked, ?_, fun id => ?_, fun call called => ?_, copied.distinct,
    fun symbol => ?_, fun call called => ?_, fun symbol new settled foreign => ?_⟩
  · rw [decls]
    exact copied.indexed.nodup_questions (nodup_eraseDups _)
  · rw [decls, List.mem_map]
    constructor
    · rintro ⟨⟨id, old⟩, asked, rfl⟩
      exact (copied.indexed.mem_questions_iff.1 asked).1
    · intro reached
      obtain ⟨decl, found⟩ := copied.indexed.known id ((copied.indexed.mem_postorder id).2 reached)
      exact ⟨(id, decl.symbol), copied.indexed.mem_questions_iff.2 ⟨reached, decl, found, rfl⟩, rfl⟩
  · have asked : call.question ∈ Chooser.questions owners tree.symbolsInUse.eraseDups :=
      questions ▸ List.mem_map_of_mem called
    exact (copied.indexed.mem_questions_iff.1 asked).2
  · rw [copied.keys, List.mem_eraseDups, mem_symbolsInUse_iff copied.indexed.fits]
    simp only [exists_and_left]
  · exact entry.2 (Chooser.mem_answered_iff.1 called).1
  · have unowned : owners.lookup symbol = none := by
      rw [Option.eq_none_iff_forall_ne_some]
      intro id owner
      obtain ⟨reached, decl, found, same⟩ := (copied.indexed.lookup symbol id).1 owner
      exact foreign id decl reached found same
    exact Chooser.stays_of_entries copied.entries unowned (entry.1 settled)

theorem asked_of_copyWith_error (declared : tree.declared = .ok owners) {error : PassError}
    (run : (tree.copyWith choose).run before = .error error after) :
    ∃ calls, calls <+: Chooser.questions owners tree.symbolsInUse.eraseDups ∧
      after.asked = calls.reverse ++ before.asked := by
  rw [copyWith_eq_copyListed, copyListed_run declared] at run
  split at run
  · exact nomatch run
  · next cause state failed =>
    obtain ⟨rfl, rfl⟩ := EStateM.Result.error.inj run
    obtain ⟨calls, listed, asked⟩ := Chooser.asked_of_entries_error failed
    exact ⟨calls, listed, asked⟩

/-- A copy asks for every declaration under the roots once, with the symbol that it owns, and for
nothing else. One that fails has not asked for any declaration twice. -/
theorem consulted_of_copyWith (tree : DeclTree) (choose : Chooser σ) (before after : CopyState σ) :
    (∀ copy, (tree.copyWith choose).run before = .ok copy after →
      ∃ calls, tree.Consulted choose before after copy calls) ∧
    (∀ error, (tree.copyWith choose).run before = .error error after →
      ∃ calls : List (DeclId × SymbolId), after.asked = calls.reverse ++ before.asked ∧
        (calls.map Prod.fst).Nodup ∧ ∀ id old, (id, old) ∈ calls →
          tree.Reachable id ∧ ∃ decl, tree.get? id = some decl ∧ decl.symbol = old) := by
  constructor
  · intro copy run
    obtain ⟨owners, copied⟩ := exists_copied_of_copyWith run
    exact ⟨_, copied.consulted⟩
  · intro error run
    cases declared : tree.declared with
    | error fault =>
      rw [copyWith_run_of_error declared] at run
      obtain ⟨-, rfl⟩ := EStateM.Result.error.inj run
      exact ⟨[], rfl, List.nodup_nil, fun _ _ inside => nomatch inside⟩
    | ok owners =>
      have indexed := indexed_of_declared declared
      obtain ⟨calls, listed, asked⟩ := asked_of_copyWith_error declared run
      have distinct := indexed.nodup_questions (nodup_eraseDups tree.symbolsInUse)
      refine ⟨calls, asked, distinct.sublist (listed.sublist.map _), fun id old called => ?_⟩
      exact indexed.mem_questions_iff.1 (listed.subset called)

theorem consulted_of_copyWith_sample :
    (∃ copy after calls, (sample.copyWith (.listed [⟨3⟩, ⟨7⟩])).run ⟨sampleSymbols, (), []⟩ =
        .ok copy after ∧
      sample.Consulted (.listed [⟨3⟩, ⟨7⟩]) ⟨sampleSymbols, (), []⟩ after copy calls) ∧
    ∃ error after, (sample.copyWith (.listed [⟨7⟩])).run ⟨{}, (), []⟩ = .error error after ∧
      (after.asked.map Prod.fst).Nodup := by
  constructor
  · have done : (sample.copyWith (.listed [⟨3⟩, ⟨7⟩])).succeeds ⟨sampleSymbols, (), []⟩ = true := by
      decide +kernel
    obtain ⟨copy, after, run⟩ := Pass.succeeds_eq_true_iff.1 done
    obtain ⟨calls, consulted⟩ := (consulted_of_copyWith sample _ _ after).1 copy run
    exact ⟨copy, after, calls, run, consulted⟩
  · have refused : (sample.copyWith (.listed [⟨7⟩])).succeeds ⟨{}, (), []⟩ = false := by
      decide +kernel
    cases run : (sample.copyWith (.listed [⟨7⟩])).run ⟨{}, (), []⟩ with
    | ok copy after =>
      rw [Pass.succeeds_eq_true_iff.2 ⟨copy, after, run⟩] at refused
      exact nomatch refused
    | error error after =>
      obtain ⟨calls, asked, distinct, -⟩ := (consulted_of_copyWith sample _ _ after).2 error run
      refine ⟨error, after, rfl, ?_⟩
      rw [asked, List.append_nil, List.map_reverse, List.nodup_reverse]
      exact distinct

end DeclTree

end Relabel
