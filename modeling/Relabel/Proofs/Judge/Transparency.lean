import Relabel.Proofs.Copy.Images
import Relabel.Proofs.Symbol.Requests

namespace Relabel.Judge

/-- What can happen to a judge: it is asked about a declaration, or something is asked of the table
that it reads. -/
inductive Event where
  | query (id : DeclId)
  | request (request : SymbolTable.Request)

/-- The declaration that an event asks about. -/
def Event.query? : Event → Option DeclId
  | query id => some id
  | request _ => none

/-- The answers of one judge to the queries among the events. Its memory is what each of them leaves
behind, also where it fails. -/
def interview (judge : Judge) (symbols : SymbolTable) (memory : Memory) :
    List Event → List (Except PassError Bool)
  | [] => []
  | .query id :: events =>
    (judge.verdict symbols id).resultFrom memory ::
      judge.interview symbols ((judge.verdict symbols id).stateAfter memory) events
  | .request request :: events => judge.interview (symbols.serve request) memory events

/-- The answer of a judge that remembers nothing yet. -/
def freshAnswer (judge : Judge) (symbols : SymbolTable) (id : DeclId) : Except PassError Bool :=
  (judge.verdict symbols id).resultFrom {}

theorem freshAnswer_eq_ruling (judge : Judge) (symbols : SymbolTable) (id : DeclId) :
    judge.freshAnswer symbols id = judge.ruling symbols id :=
  ((judge.verdict_yields symbols id).resultFrom_eq (recalls_empty [])).1

/-- The table knows the symbols that the declarations of the tree own. -/
def Furnished (judge : Judge) (symbols : SymbolTable) : Prop :=
  ∀ id decl, judge.tree.get? id = some decl → ∃ symbol, symbols.get? decl.symbol = some symbol

variable {judge : Judge} {symbols : SymbolTable} {memory : Memory}

/-- What a table is asked for changes no ruling, as it never changes what a symbol stands in for. -/
theorem ruling_serve (furnished : judge.Furnished symbols) (request : SymbolTable.Request)
    (id : DeclId) : judge.ruling (symbols.serve request) id = judge.ruling symbols id := by
  have keeps : (symbols.serve request).Keeps symbols := symbols.keeps_serveAll [request]
  exact keeps.ruling_of_informed (DeclTree.informed_of_arena furnished id)

theorem furnished_serve (furnished : judge.Furnished symbols) (request : SymbolTable.Request) :
    judge.Furnished (symbols.serve request) := by
  intro id decl found
  obtain ⟨symbol, known⟩ := furnished id decl found
  obtain ⟨same, still, -⟩ := symbols.keeps_serveAll [request] decl.symbol symbol known
  exact ⟨same, still⟩

/-- The invariant is that all remembered verdicts are rulings. -/
theorem interview_of_recalls (furnished : judge.Furnished symbols)
    (recalls : judge.Recalls symbols memory) (events : List Event) :
    judge.interview symbols memory events =
      (events.filterMap Event.query?).map (judge.ruling symbols) := by
  induction events generalizing symbols memory with
  | nil => rfl
  | cons event events ih =>
    cases event with
    | query id =>
      obtain ⟨answer, still⟩ := (judge.verdict_yields symbols id).resultFrom_eq recalls
      rw [interview, answer, ih furnished still]
      rfl
    | request request =>
      have keeps : (symbols.serve request).Keeps symbols := symbols.keeps_serveAll [request]
      rw [interview, ih (furnished_serve furnished request) (keeps.recalls recalls)]
      exact List.map_congr_left fun id _ => ruling_serve furnished request id

/-- Whatever one judge is asked in whatever order while the table changes, and whichever of its answers
are errors: it answers each query as a new judge does on the table at the start. -/
theorem interview_eq_freshAnswer (judge : Judge) (symbols : SymbolTable)
    (furnished : judge.Furnished symbols) (events : List Event) :
    judge.interview symbols {} events =
      (events.filterMap Event.query?).map (judge.freshAnswer symbols) := by
  rw [interview_of_recalls furnished (recalls_empty []) events]
  exact List.map_congr_left fun id _ => (judge.freshAnswer_eq_ruling symbols id).symm

/-- A predicate that classifies nothing is asked twice about a parameter, as its failure is not
remembered. -/
theorem interview_eq_freshAnswer_sample :
    (Judge.mk .sample fun _ => .error ⟨"unclassified"⟩).interview DeclTree.sampleSymbols {}
        [.query ⟨2⟩, .request (.add .valueParam .placeholder none), .query ⟨5⟩,
          .request (.bind ⟨9⟩ ⟨⟨0⟩, ⟨2⟩⟩ ⟨6, 7⟩), .query ⟨2⟩, .query ⟨9⟩] =
      [.error (.predicate ⟨2⟩ ⟨"unclassified"⟩), .ok false,
        .error (.predicate ⟨2⟩ ⟨"unclassified"⟩), .error (.inTree (.unknownDecl ⟨0⟩ ⟨9⟩))] := by
  rw [interview_eq_freshAnswer _ _ fun _ _ found =>
    DeclTree.exists_get?_sampleSymbols found List.mem_cons_self]
  decide +kernel

end Relabel.Judge
