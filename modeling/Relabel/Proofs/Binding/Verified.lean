import Relabel.Proofs.Binding
import Relabel.Proofs.Tree.BottomUp

namespace Relabel.DeclTree

variable {tree : DeclTree} {table : SymbolTable} {id : DeclId}

/-- A declaration is in the tree, and the symbol that it owns is known and bound. -/
def Verified (tree : DeclTree) (table : SymbolTable) (id : DeclId) : Prop :=
  ∃ decl symbol, tree.get? id = some decl ∧ table.get? decl.symbol = some symbol ∧
    symbol.isBound = true

/-- The error for a declaration that is not in the tree or owns a symbol that is not known or not bound,
with its text. -/
inductive Unverified (tree : DeclTree) (table : SymbolTable) (id : DeclId) :
    PassError → String → Prop where
  | missing (absent : tree.get? id = none) :
    Unverified tree table id (.inTree (.unknownDecl tree.id id))
      s!"{id.label} is not a declaration of tree {tree.id.label}"
  | unknown {decl : Decl} (found : tree.get? id = some decl)
    (absent : table.get? decl.symbol = none) :
    Unverified tree table id (.inTable (.unknown decl.symbol)) s!"unknown symbol {decl.symbol.label}"
  | unbound {decl : Decl} {symbol : Symbol} (found : tree.get? id = some decl)
    (known : table.get? decl.symbol = some symbol) (unbound : symbol.isBound = false) :
    Unverified tree table id (.neverBound decl.symbol id symbol.kind)
      s!"{symbol.kind.label} symbol {decl.symbol.label} of {id.label} was never bound to its declaration"

/-- The check of one declaration passes what is verified, and says of anything else what is wrong. -/
theorem checkOwner_run_cases (tree : DeclTree) (table : SymbolTable) (id : DeclId) :
    (tree.Verified table id ∧ (tree.checkOwner table id).run () = .ok () ()) ∨
    (¬tree.Verified table id ∧ ∃ error, tree.Unverified table id error error.message ∧
      (tree.checkOwner table id).run () = .error error ()) := by
  cases found : tree.get? id with
  | none =>
    refine .inr ⟨?_, _, .missing found, ?_⟩
    · rintro ⟨decl, symbol, here, -⟩
      simp [found] at here
    · have wrong : tree.get id = .error (.unknownDecl tree.id id) := by simp [DeclTree.get, found]
      simp only [checkOwner, Pass.decl, wrong]
      rfl
  | some decl =>
    cases known : table.get? decl.symbol with
    | none =>
      refine .inr ⟨?_, _, .unknown found known, ?_⟩
      · rintro ⟨same, symbol, here, data, -⟩
        obtain rfl := Option.some.inj (found.symm.trans here)
        simp [known] at data
      · have wrong : table.get decl.symbol = .error (.unknown decl.symbol) := by
          simp [SymbolTable.get, known]
        simp only [checkOwner, Pass.decl_eq_pure found, pure_bind, Pass.symbol, wrong]
        rfl
    | some symbol =>
      have run := checkOwner_run found known ()
      cases bound : symbol.isBound with
      | true =>
        refine .inl ⟨⟨decl, symbol, found, known, bound⟩, ?_⟩
        simpa [bound] using run
      | false =>
        refine .inr ⟨?_, _, .unbound found known bound, ?_⟩
        · rintro ⟨same, other, here, data, verified⟩
          obtain rfl := Option.some.inj (found.symm.trans here)
          obtain rfl := Option.some.inj (known.symm.trans data)
          simp [bound] at verified
        · simpa [bound] using run

theorem checkOwner_run_eq_ok_iff :
    (tree.checkOwner table id).run () = .ok () () ↔ tree.Verified table id := by
  rcases tree.checkOwner_run_cases table id with ⟨verified, run⟩ | ⟨wrong, error, -, run⟩
  · simp [run, verified]
  · simp [run, wrong]

theorem Unverified.unique {error other : PassError} {text message : String}
    (wrong : tree.Unverified table id error text) (same : tree.Unverified table id other message) :
    error = other := by
  cases wrong <;> cases same <;> simp_all

theorem checkOwner_run_eq_error_iff {error : PassError} :
    (tree.checkOwner table id).run () = .error error () ↔
      tree.Unverified table id error error.message := by
  rcases tree.checkOwner_run_cases table id with ⟨verified, run⟩ | ⟨-, other, wrong, run⟩
  · obtain ⟨decl, symbol, found, known, bound⟩ := verified
    refine iff_of_false (by simp [run]) ?_
    intro wrong
    cases wrong <;> simp_all
  · rw [run]
    constructor
    · intro same
      cases same
      exact wrong
    · intro claimed
      rw [wrong.unique claimed]

theorem forM_checkOwner_run_iff {ids : List DeclId} :
    (ids.forM (tree.checkOwner table)).run () = .ok () () ↔ ∀ id ∈ ids, tree.Verified table id := by
  induction ids with
  | nil => simp
  | cons id ids ih =>
    rw [← List.singleton_append, forM_append_run_eq_ok_iff, List.forall_mem_append, ← ih]
    simp only [List.forall_mem_singleton, forM_singleton_run_eq_ok_iff]
    constructor
    · rintro ⟨⟨⟩, visited, rest⟩
      exact ⟨checkOwner_run_eq_ok_iff.1 visited, rest⟩
    · rintro ⟨verified, rest⟩
      exact ⟨(), checkOwner_run_eq_ok_iff.2 verified, rest⟩

theorem uniform_checkOwner (tree : DeclTree) (table : SymbolTable) :
    tree.Uniform (tree.checkOwner table) (fun _ => True) (tree.Verified table) where
  known := by
    rintro id ⟨decl, -, found, -⟩
    exact ⟨decl, found⟩
  passes id _ _ verified := ⟨(), checkOwner_run_eq_ok_iff.2 verified, trivial⟩
  fails id _ _ wrong := by
    rcases tree.checkOwner_run_cases table id with ⟨verified, -⟩ | ⟨-, error, -, run⟩
    · exact absurd verified wrong
    · exact ⟨error, (), run⟩

section Check

variable (bottomUp : tree.BottomUp)

include bottomUp

theorem ends_checkBound (table : SymbolTable) : tree.Ends (tree.checkOwner table) tree.roots ()
    ((tree.walkAll (tree.checkOwner table)).run ()) :=
  ends_walkAll (tree.uniform_checkOwner table) (bottomUp.straight _) trivial

theorem checkBound_eq_ok_iff_of_walks {order : List DeclId}
    (walks : tree.Walks tree.roots order []) :
    tree.checkBound table = .ok () ↔ ∀ id ∈ order, tree.Verified table id := by
  have ends := ends_checkBound bottomUp table
  constructor
  · intro passed
    obtain ⟨met, left, middle, walksMet, visits, stops⟩ := ends
    rw [checkBound, Pass.toResult] at passed
    generalize (tree.walkAll (tree.checkOwner table)).run () = result at passed stops
    cases stops with
    | done =>
      rw [← walksMet.unique walks]
      exact forM_checkOwner_run_iff.1 visits
    | failed => simp at passed
  · intro verified
    have visits := forM_checkOwner_run_iff.2 verified
    have run := ends.unique ⟨order, [], (), walks, visits, .done ()⟩
    rw [checkBound, Pass.toResult, run]

theorem checkBound_eq_error_iff_of_walks {order : List DeclId}
    (walks : tree.Walks tree.roots order []) {error : PassError} :
    tree.checkBound table = .error error ↔ ∃ met id later, order = met ++ id :: later ∧
      (∀ other ∈ met, tree.Verified table other) ∧
        tree.Unverified table id error error.message := by
  have ends := ends_checkBound bottomUp table
  constructor
  · intro failed
    obtain ⟨met, left, middle, walksMet, visits, stops⟩ := ends
    rw [checkBound, Pass.toResult] at failed
    generalize (tree.walkAll (tree.checkOwner table)).run () = result at failed stops
    cases stops with
    | done => simp at failed
    | @failed id _ _ cause fails rest =>
      obtain rfl : cause = error := by simpa using failed
      obtain ⟨onward, walksOn⟩ := bottomUp.exists_walks (id :: rest)
      have all := (walksMet.trans walksOn).unique walks
      cases walksOn with
      | @visit _ _ later _ _ =>
        refine ⟨met, id, later, all.symm, forM_checkOwner_run_iff.1 visits, ?_⟩
        exact checkOwner_run_eq_error_iff.1 fails
  · rintro ⟨met, id, later, rfl, verified, wrong⟩
    obtain ⟨rest, walksMet⟩ := walks.comesTo
    have visits := forM_checkOwner_run_iff.2 verified
    have fails := checkOwner_run_eq_error_iff.2 wrong
    have run := ends.unique ⟨met, id :: rest, (), walksMet, visits, .failed fails rest⟩
    rw [checkBound, Pass.toResult, run]

end Check

/-- Where declarations list earlier ones only, the check passes iff everything that a walk from the
roots meets is verified, and else it fails as the first declaration does that is not. Roots need not be
in the tree. -/
theorem checkBound_of_bottomUp (tree : DeclTree) (bottomUp : tree.BottomUp) :
    ∃ order, tree.Walks tree.roots order [] ∧ (∀ id, id ∈ order ↔ tree.Reachable id) ∧
      ∀ table, (tree.checkBound table = .ok () ↔ ∀ id ∈ order, tree.Verified table id) ∧
        ∀ error, tree.checkBound table = .error error ↔
          ∃ met id later, order = met ++ id :: later ∧
            (∀ other ∈ met, tree.Verified table other) ∧
              tree.Unverified table id error error.message := by
  obtain ⟨order, walks⟩ := bottomUp.exists_walks tree.roots
  refine ⟨order, walks, walks.mem_iff_reachable, fun table => ⟨?_, fun error => ?_⟩⟩
  · exact checkBound_eq_ok_iff_of_walks bottomUp walks
  · exact checkBound_eq_error_iff_of_walks bottomUp walks

/-- A function with a parameter, and a root that is not in the tree. -/
def unfinished : DeclTree where
  id := ⟨0⟩
  roots := [⟨1⟩, ⟨7⟩]
  decls := #[
    { symbol := ⟨0⟩, form := .required ⟨3⟩ (.ofName ⟨2⟩), container := some ⟨1⟩ },
    { symbol := ⟨1⟩, form := .signature ⟨4⟩ [⟨0⟩] none }]

/-- The function and its parameter are bound as the flags say. -/
def unfinishedSymbols (function param : Bool) : SymbolTable where
  nextTree := 1
  symbols := #[
    { kind := .valueParam, origin := .placeholder, source := none,
      site := if param then some ⟨⟨0⟩, ⟨0⟩⟩ else none },
    { kind := .function .plain, origin := .declared, source := none,
      site := if function then some ⟨⟨0⟩, ⟨1⟩⟩ else none }]

theorem checkBound_of_bottomUp_unfinished : unfinished.BottomUp ∧
    unfinished.checkBound (unfinishedSymbols true false) =
      .error (.neverBound ⟨0⟩ ⟨0⟩ .valueParam) ∧
    unfinished.checkBound (unfinishedSymbols true true) =
      .error (.inTree (.unknownDecl ⟨0⟩ ⟨7⟩)) := by
  have bottomUp : unfinished.BottomUp := by decide
  obtain ⟨order, walks, -, checks⟩ := checkBound_of_bottomUp unfinished bottomUp
  obtain rfl : order = [⟨1⟩, ⟨0⟩, ⟨7⟩] := walks.unique (.visit (.visit (.visit (.stop []))))
  have function (param : Bool) : unfinished.Verified (unfinishedSymbols true param) ⟨1⟩ :=
    ⟨_, _, rfl, rfl, rfl⟩
  have param : unfinished.Verified (unfinishedSymbols true true) ⟨0⟩ := ⟨_, _, rfl, rfl, rfl⟩
  refine ⟨bottomUp, ?_, ?_⟩
  · apply ((checks _).2 _).2
    have found : unfinished.get? ⟨0⟩ = some unfinished.decls[0] := rfl
    have known : (unfinishedSymbols true false).get? ⟨0⟩ =
        some ⟨.valueParam, .placeholder, none, none⟩ := rfl
    exact ⟨[⟨1⟩], ⟨0⟩, [⟨7⟩], rfl, by simp [function], .unbound found known rfl⟩
  · apply ((checks _).2 _).2
    exact ⟨[⟨1⟩, ⟨0⟩], ⟨7⟩, [], rfl, by simp [function, param], .missing rfl⟩

end Relabel.DeclTree
