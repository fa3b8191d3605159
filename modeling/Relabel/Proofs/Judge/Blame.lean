import Relabel.Proofs.Copy.Parameters
import Relabel.Proofs.Judge.Search
import Relabel.Proofs.Relabelled.Untouched

namespace Relabel

theorem SymbolTable.Grown.get?_of_plain {earlier later : SymbolTable} (grown : earlier.Grown later)
    {id : SymbolId} {symbol : Symbol} (known : later.get? id = some symbol)
    (plain : symbol.isPlaceholder = false) : earlier.get? id = some symbol := by
  have below : id.index < earlier.size := by
    by_contra above
    have placeholder := grown.added id symbol (by omega) known
    simp [plain] at placeholder
  rw [← grown.old id below, known]

/-- The types by which a declaration is judged, in the order in which they are looked at. -/
def DeclTree.signatureTypes (tree : DeclTree) : DeclForm → List TypeExpr
  | .cls .. | .typeParam .. => []
  | .ctor _ params _ => tree.paramTypes params
  | .function _ _ _ params result _ => tree.paramTypes params ++ result.toList
  | .valueParam _ ty _ | .receiverParam ty => [ty]

namespace Judge

/-- The decision for `owner` fails at `ty`, having found that the types in `asked` are not annotated.
These are all the types before `ty`, each with its direct arguments. The symbol of `owner` is no
placeholder, so that there is something to decide. -/
structure FailsAt (judge : Judge) (symbols : SymbolTable) (owner : DeclId) (asked : List TypeExpr)
    (ty : TypeExpr) (failure : PredicateFailure) : Prop where
  signature : ∃ decl symbol rest, judge.tree.get? owner = some decl ∧
    symbols.get? decl.symbol = some symbol ∧ symbol.isPlaceholder = false ∧
    (judge.tree.signatureTypes decl.form).flatMap TypeExpr.parts = asked ++ ty :: rest
  no : ∀ other ∈ asked, judge.predicate other = .ok false
  fails : judge.predicate ty = .error failure

/-- All these types could be classified. -/
def Classifies (judge : Judge) (tys : List TypeExpr) : Prop :=
  ∀ ty ∈ tys, ∃ annotated, judge.predicate ty = .ok annotated

/-- Which types have been asked about, and how that has ended: a type that cannot be classified is the
last one, and the error blames the declaration whose decision has failed there. It is one of those that
`accused` allows. -/
inductive Report (judge : Judge) (symbols : SymbolTable) (accused : DeclId → Prop) {α : Type} :
    List TypeExpr → Except PassError α → Prop where
  | done {asked : List TypeExpr} {value : α} (classified : judge.Classifies asked) :
    Report judge symbols accused asked (.ok value)
  | stopped {asked : List TypeExpr} {error : PassError} (classified : judge.Classifies asked)
    (foreign : ¬error.OfPredicate) : Report judge symbols accused asked (.error error)
  | blamed {earlier own : List TypeExpr} {ty : TypeExpr} {owner : DeclId}
    {failure : PredicateFailure} (classified : judge.Classifies earlier) (allowed : accused owner)
    (failsAt : judge.FailsAt symbols owner own ty failure) :
    Report judge symbols accused (earlier ++ own ++ [ty]) (.error (.predicate owner failure))

variable {judge : Judge} {symbols : SymbolTable} {accused : DeclId → Prop} {α β : Type}

theorem Classifies.nil : judge.Classifies [] := List.forall_mem_nil _

theorem Classifies.append {asked more : List TypeExpr} (first : judge.Classifies asked)
    (second : judge.Classifies more) : judge.Classifies (asked ++ more) :=
  List.forall_mem_append.2 ⟨first, second⟩

theorem Classifies.of_no {asked : List TypeExpr}
    (no : ∀ ty ∈ asked, judge.predicate ty = .ok false) : judge.Classifies asked :=
  fun ty inside => ⟨false, no ty inside⟩

namespace Report

variable {asked more : List TypeExpr}

/-- An error is passed on as it is. -/
theorem error {error : PassError}
    (report : judge.Report symbols accused asked (.error error : Except PassError α)) :
    judge.Report symbols accused asked (.error error : Except PassError β) := by
  cases report with
  | stopped classified foreign => exact .stopped classified foreign
  | blamed classified allowed failsAt => exact .blamed classified allowed failsAt

theorem append {value : α} {result : Except PassError β}
    (first : judge.Report symbols accused asked (.ok value : Except PassError α))
    (second : judge.Report symbols accused more result) :
    judge.Report symbols accused (asked ++ more) result := by
  cases first with
  | done before =>
    cases second with
    | done after => exact .done (before.append after)
    | stopped after foreign => exact .stopped (before.append after) foreign
    | blamed after allowed failsAt =>
      rw [← List.append_assoc, ← List.append_assoc]
      exact .blamed (before.append after) allowed failsAt

theorem mono {result : Except PassError α} {others : DeclId → Prop}
    (report : judge.Report symbols accused asked result)
    (allow : ∀ owner, accused owner → others owner) : judge.Report symbols others asked result := by
  cases report with
  | done classified => exact .done classified
  | stopped classified foreign => exact .stopped classified foreign
  | blamed classified allowed failsAt => exact .blamed classified (allow _ allowed) failsAt

/-- The search that a decision makes reports on its own. -/
theorem of_search {owner : DeclId} {decl : Decl} {symbol : Symbol} {result : Except PassError Bool}
    (allowed : accused owner) (found : judge.tree.get? owner = some decl)
    (known : symbols.get? decl.symbol = some symbol) (plain : symbol.isPlaceholder = false)
    (search : Search judge.predicate owner
      ((judge.tree.signatureTypes decl.form).flatMap TypeExpr.parts) asked result) :
    judge.Report symbols accused asked result := by
  generalize listed : (judge.tree.signatureTypes decl.form).flatMap TypeExpr.parts = tys at search
  cases search with
  | nowhere no => exact .done (.of_no no)
  | found no yes =>
    exact .done ((Classifies.of_no no).append (List.forall_mem_singleton.2 ⟨true, yes⟩))
  | @failed asked rest ty failure no fails =>
    have failsAt : judge.FailsAt symbols owner asked ty failure :=
      ⟨⟨decl, symbol, rest, found, known, plain, listed⟩, no, fails⟩
    have report : judge.Report symbols accused ([] ++ asked ++ [ty])
        (.error (.predicate owner failure) : Except PassError Bool) :=
      .blamed .nil allowed failsAt
    exact report
  | stopped no foreign => exact .stopped (.of_no no) foreign

/-- A declaration is blamed only for a type that its decision has failed at, which is the last one. -/
theorem of_predicate {owner : DeclId} {failure : PredicateFailure}
    (report : judge.Report symbols accused asked
      (.error (.predicate owner failure) : Except PassError α)) :
    accused owner ∧ ∃ earlier own ty, asked = earlier ++ own ++ [ty] ∧
      judge.FailsAt symbols owner own ty failure := by
  cases report with
  | stopped classified foreign => exact absurd ⟨owner, failure, rfl⟩ foreign
  | blamed classified allowed failsAt => exact ⟨allowed, _, _, _, rfl, failsAt⟩

/-- A type that cannot be classified is never passed over. -/
theorem exists_predicate {result : Except PassError α}
    (report : judge.Report symbols accused asked result)
    {ty : TypeExpr} (inside : ty ∈ asked) {failure : PredicateFailure}
    (fails : judge.predicate ty = .error failure) :
    ∃ owner, result = .error (.predicate owner failure) := by
  have unclassified {tys : List TypeExpr} (classified : judge.Classifies tys) : ty ∉ tys := by
    intro among
    obtain ⟨annotated, answer⟩ := classified ty among
    rw [fails] at answer
    cases answer
  cases report with
  | done classified => exact absurd inside (unclassified classified)
  | stopped classified foreign => exact absurd inside (unclassified classified)
  | @blamed earlier own last owner cause classified allowed failsAt =>
    have others : judge.Classifies (earlier ++ own) := classified.append (.of_no failsAt.no)
    rcases List.mem_append.1 inside with among | here
    · exact absurd among (unclassified others)
    · obtain rfl := List.mem_singleton.1 here
      have same : cause = failure := by
        have both := failsAt.fails.symm.trans fails
        simpa using both
      exact ⟨owner, by rw [same]⟩

end Report

section Passes

variable {σ : Type} {log : σ → List TypeExpr} {inv : σ → Prop}

/-- What the pass asks about, and how it ends, is as reported. -/
def Reports (judge : Judge) (symbols : SymbolTable) (accused : DeclId → Prop)
    (log : σ → List TypeExpr) (inv : σ → Prop) (pass : Pass σ α) : Prop :=
  Pass.Logs log inv (judge.Report symbols accused) pass

namespace Reports

theorem of_pure (value : α) : judge.Reports symbols accused log inv (pure value : Pass σ α) :=
  Pass.Logs.of_pure (.done .nil)

theorem bind {pass : Pass σ α} {next : α → Pass σ β}
    (first : judge.Reports symbols accused log inv pass)
    (second : ∀ value, judge.Reports symbols accused log inv (next value)) :
    judge.Reports symbols accused log inv (pass >>= next) :=
  Pass.Logs.bind (fun _ => judge.Report symbols accused) first second
    (fun _ _ report => report.error) fun _ _ _ _ report onward => report.append onward

theorem orM {first second : Pass σ Bool} (one : judge.Reports symbols accused log inv first)
    (other : judge.Reports symbols accused log inv second) :
    judge.Reports symbols accused log inv (first <||> second) := by
  refine one.bind fun value => ?_
  cases value with
  | true => exact of_pure true
  | false => exact other

theorem mapM {list : List α} {step : α → Pass σ β}
    (each : ∀ a ∈ list, judge.Reports symbols accused log inv (step a)) :
    judge.Reports symbols accused log inv (list.mapM step) := by
  induction list with
  | nil => exact of_pure []
  | cons a list ih =>
    rw [List.mapM_cons]
    refine (each a List.mem_cons_self).bind fun value => ?_
    refine (ih fun other inside => each other (List.mem_cons_of_mem a inside)).bind fun values => ?_
    exact of_pure (value :: values)

theorem mono {pass : Pass σ α} {others : DeclId → Prop}
    (reports : judge.Reports symbols accused log inv pass)
    (allow : ∀ owner, accused owner → others owner) :
    judge.Reports symbols others log inv pass :=
  Pass.Logs.mono reports fun _ _ report => report.mono allow

/-- A lookup that fails is not the predicate's fault. -/
theorem ofExcept_bind {ε : Type} {wrap : ε → PassError} {result : Except ε α} {next : α → Pass σ β}
    (foreign : ∀ error, ¬(wrap error).OfPredicate)
    (each : ∀ value, result = .ok value → judge.Reports symbols accused log inv (next value)) :
    judge.Reports symbols accused log inv (Pass.ofExcept wrap result >>= next) :=
  Pass.Logs.ofExcept_bind each fun error _ => .stopped .nil (foreign error)

end Reports

end Passes

section Verdicts

variable {start : SymbolTable}

/-- A verdict reports on what the judge is asked about for it. -/
abbrev ReportsVerdict (judge : Judge) (start : SymbolTable) (accused : DeclId → Prop)
    (verdict : Pass Memory Bool) : Prop :=
  judge.Reports start accused (·.consulted) (fun _ => True) verdict

theorem reports_memoized {id : DeclId} {assess : Pass Memory Bool}
    (assessed : judge.ReportsVerdict start accused assess) :
    judge.ReportsVerdict start accused (memoized id assess) := by
  refine Pass.Logs.get_bind fun memory _ => ?_
  cases memory.verdicts.lookup id with
  | some verdict => exact Reports.of_pure verdict
  | none =>
    refine assessed.bind fun verdict => ?_
    exact Pass.Logs.modify_bind [] (fun _ _ => trivial) (fun _ => rfl) (Reports.of_pure verdict)

theorem reports_containerTransformed {outer : DeclId → Pass Memory Bool} (decl : Decl)
    (above : ∀ container, decl.container = some container →
      judge.ReportsVerdict start accused (outer container)) :
    judge.ReportsVerdict start accused (judge.containerTransformed outer decl) := by
  unfold containerTransformed
  cases inside : decl.container with
  | none => exact Reports.of_pure false
  | some container =>
    refine Reports.ofExcept_bind (by simp [PassError.OfPredicate]) fun around _ => ?_
    split
    · exact above container inside
    · exact Reports.of_pure false

/-- About a declaration whose symbol is a placeholder nothing is asked. -/
theorem reports_unlessPlaceholder {symbol : Symbol} {assess : Pass Memory Bool}
    (assessed : symbol.isPlaceholder = false → judge.ReportsVerdict start accused assess) :
    judge.ReportsVerdict start accused (pure symbol.isPlaceholder <||> assess) := by
  cases placeholder : symbol.isPlaceholder with
  | true => exact Reports.of_pure true
  | false => exact assessed placeholder

/-- A declaration is blamed for its own types only, and another one only where it is the container of a
parameter. -/
theorem reports_assess (grown : start.Grown symbols) {outer : DeclId → Pass Memory Bool}
    {id : DeclId} (own : accused id)
    (above : ∀ decl container, judge.tree.get? id = some decl → decl.form.isParameter = true →
      decl.container = some container → judge.ReportsVerdict start accused (outer container)) :
    judge.ReportsVerdict start accused (judge.assess symbols outer id) := by
  refine Reports.ofExcept_bind (by simp [PassError.OfPredicate]) fun decl found => ?_
  refine Reports.ofExcept_bind (by simp [PassError.OfPredicate]) fun symbol known => ?_
  rw [DeclTree.get_eq_ok_iff] at found
  rw [SymbolTable.get_eq_ok_iff] at known
  have search {tys : List TypeExpr} {pass : Pass Memory Bool}
      (plain : symbol.isPlaceholder = false) (searches : judge.Searches id tys pass)
      (all : (judge.tree.signatureTypes decl.form).flatMap TypeExpr.parts = tys) :
      judge.ReportsVerdict start accused pass := by
    subst all
    have knownFirst := grown.get?_of_plain known plain
    exact Pass.Logs.mono searches fun asked result search =>
      .of_search own found knownFirst plain search
  have around (parameter : decl.form.isParameter = true) :
      judge.ReportsVerdict start accused (judge.containerTransformed outer decl) :=
    reports_containerTransformed decl fun container => above decl container found parameter
  cases form : decl.form with
  | cls name typeParams thisReceiver members => exact Reports.of_pure false
  | ctor typeParams params body =>
    refine reports_unlessPlaceholder fun plain => ?_
    refine search plain (searches_paramAnnotated id params) ?_
    rw [form, DeclTree.signatureTypes]
  | function name typeParams receiver params result body =>
    refine reports_unlessPlaceholder fun plain => ?_
    refine search plain
      ((searches_paramAnnotated id params).orM (searches_resultAnnotated id result)) ?_
    rw [form, DeclTree.signatureTypes, List.flatMap_append]
  | valueParam name ty default =>
    refine reports_unlessPlaceholder fun plain => ?_
    refine (search plain (searches_annotated id ty) ?_).orM (around ?_)
    · simp [form, DeclTree.signatureTypes]
    · rw [form, DeclForm.isParameter]
  | receiverParam ty =>
    refine reports_unlessPlaceholder fun plain => ?_
    refine (search plain (searches_annotated id ty) ?_).orM (around ?_)
    · simp [form, DeclTree.signatureTypes]
    · rw [form, DeclForm.isParameter]
  | typeParam name bounds =>
    refine reports_unlessPlaceholder fun _ => around ?_
    rw [form, DeclForm.isParameter]

/-- A verdict on `id` is about `owner` too: it is the declaration itself, or the container of a
parameter. -/
def Concerns (judge : Judge) (id owner : DeclId) : Prop :=
  owner = id ∨ ∃ decl, judge.tree.get? id = some decl ∧ decl.form.isParameter = true ∧
    decl.container = some owner

theorem reports_signatureVerdict (grown : start.Grown symbols) (id : DeclId) :
    judge.ReportsVerdict start (· = id) (judge.signatureVerdict symbols id) :=
  reports_memoized (reports_assess grown rfl fun _ _ _ _ _ => .of_pure false)

theorem reports_verdict (grown : start.Grown symbols) (id : DeclId) :
    judge.ReportsVerdict start (judge.Concerns id) (judge.verdict symbols id) := by
  refine reports_memoized (reports_assess grown (.inl rfl) ?_)
  intro decl container found parameter inside
  refine (reports_signatureVerdict grown container).mono fun owner same => ?_
  rw [same]
  exact .inr ⟨decl, found, parameter, inside⟩

end Verdicts

end Judge

end Relabel
