import Relabel.Proofs.Judge.Ruling

namespace Relabel

theorem orM_eq_ok_iff {ε : Type} {left right : Except ε Bool} {answer : Bool} :
    (left <||> right) = .ok answer ↔
      (left = .ok true ∧ answer = true) ∨ (left = .ok false ∧ right = .ok answer) := by
  cases left with
  | error error => simp [orM, bind, Except.bind]
  | ok first =>
    cases first with
    | true =>
      change (Except.ok true : Except ε Bool) = .ok answer ↔ _
      simp [eq_comm]
    | false =>
      change right = .ok answer ↔ _
      simp

namespace Judge

variable {judge : Judge} {symbols : SymbolTable}

theorem rulingWith_eq_ok_iff {outer : DeclId → Except PassError Bool} {id : DeclId}
    {verdict : Bool} : judge.rulingWith symbols outer id = .ok verdict ↔
      ∃ decl symbol, judge.tree.get? id = some decl ∧ symbols.get? decl.symbol = some symbol ∧
        judge.rulingOn outer id decl symbol.isPlaceholder = .ok verdict := by
  constructor
  · intro ruled
    cases found : judge.declOf id with
    | error error =>
      rw [rulingWith, found] at ruled
      cases ruled
    | ok decl =>
      cases known : symbols.get decl.symbol with
      | error error =>
        rw [rulingWith, found] at ruled
        change (symbols.get decl.symbol).mapError PassError.inTable >>= _ = _ at ruled
        rw [known] at ruled
        cases ruled
      | ok symbol =>
        rw [declOf_eq_ok_iff] at found
        rw [SymbolTable.get_eq_ok_iff] at known
        rw [rulingWith_of_known found known] at ruled
        exact ⟨decl, symbol, found, known, ruled⟩
  · intro both
    obtain ⟨decl, symbol, found, known, ruled⟩ := both
    rw [rulingWith_of_known found known, ruled]

section Outer

variable {outer other : DeclId → Except PassError Bool}

theorem containerRuling_mono {decl : Decl} {verdict : Bool}
    (later : ∀ id verdict, outer id = .ok verdict → other id = .ok verdict)
    (ruled : judge.containerRuling outer decl = .ok verdict) :
    judge.containerRuling other decl = .ok verdict := by
  unfold containerRuling at ruled ⊢
  cases container : decl.container with
  | none => simpa [container] using ruled
  | some around =>
    simp only [container] at ruled ⊢
    cases found : judge.declOf around with
    | error error =>
      rw [found] at ruled
      exact nomatch ruled
    | ok decl =>
      rw [found] at ruled
      change (if decl.form.isSignature then outer around else pure false) = _ at ruled
      change (if decl.form.isSignature then other around else pure false) = _
      by_cases signature : decl.form.isSignature = true
      · rw [if_pos signature] at ruled ⊢
        exact later around verdict ruled
      · rw [if_neg signature] at ruled ⊢
        exact ruled

/-- Where the signatures around parameters get the verdicts that they had, so do the parameters. -/
theorem rulingOn_mono {id : DeclId} {decl : Decl} {placeholder verdict : Bool}
    (later : ∀ id verdict, outer id = .ok verdict → other id = .ok verdict)
    (ruled : judge.rulingOn outer id decl placeholder = .ok verdict) :
    judge.rulingOn other id decl placeholder = .ok verdict := by
  have around (verdict : Bool) := @containerRuling_mono judge outer other decl verdict later
  unfold rulingOn at ruled ⊢
  cases form : decl.form with
  | cls name typeParams thisReceiver members => simpa [form] using ruled
  | ctor typeParams params body => simpa [form] using ruled
  | function name typeParams receiver params result body => simpa [form] using ruled
  | valueParam name ty default =>
    simp only [form, orM_eq_ok_iff] at ruled ⊢
    exact ruled.imp_right fun rest =>
      ⟨rest.1, rest.2.imp_right fun last => ⟨last.1, around verdict last.2⟩⟩
  | receiverParam ty =>
    simp only [form, orM_eq_ok_iff] at ruled ⊢
    exact ruled.imp_right fun rest =>
      ⟨rest.1, rest.2.imp_right fun last => ⟨last.1, around verdict last.2⟩⟩
  | typeParam name bounds =>
    simp only [form, orM_eq_ok_iff] at ruled ⊢
    exact ruled.imp_right fun rest => ⟨rest.1, around verdict rest.2⟩

theorem rulingOn_congr {id : DeclId} {decl : Decl}
    (agree : ∀ container, decl.container = some container → outer container = other container)
    (placeholder : Bool) :
    judge.rulingOn outer id decl placeholder = judge.rulingOn other id decl placeholder := by
  have around : judge.containerRuling outer decl = judge.containerRuling other decl := by
    unfold containerRuling
    cases inside : decl.container with
    | none => rfl
    | some container => simp only [agree container inside]
  unfold rulingOn
  rw [around]

end Outer

/-- A placeholder is transformed, unless it is owned by a class. -/
theorem rulingOn_placeholder {outer : DeclId → Except PassError Bool} {id : DeclId} {decl : Decl}
    (open_ : decl.form.sort ≠ .cls) : judge.rulingOn outer id decl true = .ok true := by
  unfold rulingOn
  cases form : decl.form with
  | cls name typeParams thisReceiver members => simp [form, DeclForm.sort] at open_
  | _ => rfl

theorem known_of_ruling {id : DeclId} {verdict : Bool}
    (ruled : judge.ruling symbols id = .ok verdict) : ∃ decl symbol,
      judge.tree.get? id = some decl ∧ symbols.get? decl.symbol = some symbol := by
  obtain ⟨decl, symbol, found, known, -⟩ := rulingWith_eq_ok_iff.1 ruled
  exact ⟨decl, symbol, found, known⟩

theorem sort_of_ruling_false {id : DeclId} {decl : Decl} {symbol : Symbol}
    (ruled : judge.ruling symbols id = .ok false) (found : judge.tree.get? id = some decl)
    (known : symbols.get? decl.symbol = some symbol) (placeholder : symbol.isPlaceholder = true) :
    decl.form.sort = .cls := by
  by_contra open_
  rw [ruling, rulingWith_of_known found known, placeholder, rulingOn_placeholder open_] at ruled
  cases ruled

/-- The symbols are known that the ruling on a declaration depends on: its own, and that of the
declaration that contains it. -/
structure Informed (judge : Judge) (symbols : SymbolTable) (id : DeclId) : Prop where
  own : ∀ decl, judge.tree.get? id = some decl → ∃ symbol, symbols.get? decl.symbol = some symbol
  container : ∀ decl container around, judge.tree.get? id = some decl →
    decl.container = some container → judge.tree.get? container = some around →
    ∃ symbol, symbols.get? around.symbol = some symbol

end Judge

namespace SymbolTable.Keeps

variable {earlier later : SymbolTable} {judge : Judge}

private theorem rulingWith_eq_ok (keeps : later.Keeps earlier)
    {outer other : DeclId → Except PassError Bool} {id : DeclId} {verdict : Bool}
    (still : ∀ id verdict, outer id = .ok verdict → other id = .ok verdict)
    (ruled : judge.rulingWith earlier outer id = .ok verdict) :
    judge.rulingWith later other id = .ok verdict := by
  obtain ⟨decl, symbol, found, known, ruled⟩ := Judge.rulingWith_eq_ok_iff.1 ruled
  obtain ⟨same, knownLater, -, origin⟩ := keeps decl.symbol symbol known
  have placeholder : same.isPlaceholder = symbol.isPlaceholder := by
    rw [Symbol.isPlaceholder, Symbol.isPlaceholder, origin]
  refine Judge.rulingWith_eq_ok_iff.2 ⟨decl, same, found, knownLater, ?_⟩
  rw [placeholder]
  exact Judge.rulingOn_mono still ruled

/-- A verdict stays right as the table grows. -/
theorem ruling_eq_ok (keeps : later.Keeps earlier) {id : DeclId} {verdict : Bool}
    (ruled : judge.ruling earlier id = .ok verdict) : judge.ruling later id = .ok verdict :=
  keeps.rulingWith_eq_ok (fun _ _ => keeps.rulingWith_eq_ok fun _ _ same => same) ruled

theorem recalls (keeps : later.Keeps earlier) {memory : Judge.Memory}
    (recalls : judge.Recalls earlier memory) : judge.Recalls later memory :=
  fun id verdict found => keeps.ruling_eq_ok (recalls id verdict found)

private theorem rulingWith (keeps : later.Keeps earlier)
    {outer other : DeclId → Except PassError Bool}
    {id : DeclId}
    (known : ∀ decl, judge.tree.get? id = some decl →
      ∃ symbol, earlier.get? decl.symbol = some symbol)
    (agree : ∀ decl container, judge.tree.get? id = some decl → decl.container = some container →
      outer container = other container) :
    judge.rulingWith later outer id = judge.rulingWith earlier other id := by
  cases found : judge.declOf id with
  | error error =>
    rw [Judge.rulingWith, Judge.rulingWith, found]
    rfl
  | ok decl =>
    rw [Judge.declOf_eq_ok_iff] at found
    obtain ⟨symbol, knownBefore⟩ := known decl found
    obtain ⟨same, knownAfter, -, origin⟩ := keeps decl.symbol symbol knownBefore
    have placeholder : same.isPlaceholder = symbol.isPlaceholder := by
      rw [Symbol.isPlaceholder, Symbol.isPlaceholder, origin]
    rw [Judge.rulingWith_of_known found knownBefore, Judge.rulingWith_of_known found knownAfter,
      placeholder, Judge.rulingOn_congr (agree decl · found)]

/-- Only the origins of two symbols matter to a ruling, and those do not change. -/
theorem ruling_of_informed (keeps : later.Keeps earlier) {id : DeclId}
    (informed : judge.Informed earlier id) : judge.ruling later id = judge.ruling earlier id := by
  refine keeps.rulingWith informed.own fun decl container found inside => ?_
  exact keeps.rulingWith (fun around foundAround =>
    informed.container decl container around found inside foundAround) fun _ _ _ _ => rfl

end SymbolTable.Keeps

end Relabel
