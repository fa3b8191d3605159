import Relabel.Id
import Relabel.Symbol.Kind
import Relabel.Syntax.Span

namespace Relabel

inductive Symbol.Origin where
  | declared
  | placeholder
deriving DecidableEq, Repr

/-- A symbol. A placeholder stands in for a declared symbol in a copy, and `site` is the declaration
that a symbol stands for once it is bound. -/
structure Symbol where
  kind : Symbol.Kind
  origin : Symbol.Origin
  source : Option Span
  site : Option DeclSite := none
deriving DecidableEq, Repr

namespace Symbol

def isBound (symbol : Symbol) : Bool := symbol.site.isSome

def isPlaceholder (symbol : Symbol) : Bool := symbol.origin == .placeholder

/-- The symbol once it stands for `site`. A symbol without a source takes the one of its declaration. -/
def boundTo (symbol : Symbol) (site : DeclSite) (span : Span) : Symbol :=
  { symbol with site := some site, source := some (symbol.source.getD span) }

end Symbol

/-- The symbols of one compilation unit, with the number of its next declaration tree. -/
structure SymbolTable where
  symbols : Array Symbol := #[]
  nextTree : Nat := 0
deriving DecidableEq, Repr

inductive SymbolTable.Error where
  | unknown (id : SymbolId)
  | unbound (id : SymbolId)
deriving DecidableEq, Repr

def SymbolTable.Error.message : SymbolTable.Error → String
  | unknown id => s!"unknown symbol {id.label}"
  | unbound id => s!"symbol {id.label} is not bound to a declaration"

inductive BindResult where
  | bound
  | alreadyBound
deriving DecidableEq, Repr

namespace SymbolTable

def size (table : SymbolTable) : Nat := table.symbols.size

def get? (table : SymbolTable) (id : SymbolId) : Option Symbol := table.symbols[id.index]?

protected def get (table : SymbolTable) (id : SymbolId) : Except Error Symbol :=
  match table.get? id with
  | some symbol => .ok symbol
  | none => .error (.unknown id)

def isBound (table : SymbolTable) (id : SymbolId) : Bool := (table.get? id).any (·.isBound)

/-- The declaration that a symbol stands for. -/
def site (table : SymbolTable) (id : SymbolId) : Except Error DeclSite :=
  (table.get id).bind fun symbol =>
    match symbol.site with
    | some site => .ok site
    | none => .error (.unbound id)

/-- A new symbol, bound to nothing yet. -/
def add (table : SymbolTable) (kind : Symbol.Kind) (origin : Symbol.Origin)
    (source : Option Span) : SymbolId × SymbolTable :=
  (⟨table.size⟩, { table with symbols := table.symbols.push { kind, origin, source } })

def addPlaceholder (table : SymbolTable) (kind : Symbol.Kind) (source : Option Span) :
    SymbolId × SymbolTable :=
  table.add kind .placeholder source

/-- Binds a symbol at most once: a symbol that is already bound stays as it is. -/
def bind (table : SymbolTable) (id : SymbolId) (site : DeclSite) (span : Span) :
    Except Error (BindResult × SymbolTable) :=
  (table.get id).map fun symbol =>
    if symbol.isBound then (.alreadyBound, table)
    else
      (.bound, { table with
        symbols := table.symbols.setIfInBounds id.index (symbol.boundTo site span) })

/-- The number for a new declaration tree. -/
def takeTree (table : SymbolTable) : TreeId × SymbolTable :=
  (⟨table.nextTree⟩, { table with nextTree := table.nextTree + 1 })

def boundCount (table : SymbolTable) : Nat := table.symbols.toList.countP (·.isBound)

theorem get_eq_ok_iff {table : SymbolTable} {id : SymbolId} {symbol : Symbol} :
    table.get id = .ok symbol ↔ table.get? id = some symbol := by
  unfold SymbolTable.get
  split <;> simp_all

theorem get?_isSome_iff (table : SymbolTable) (id : SymbolId) :
    (table.get? id).isSome ↔ id.index < table.size := by
  simp [get?, size]

theorem get?_add (table : SymbolTable) (kind : Symbol.Kind) (origin : Symbol.Origin)
    (source : Option Span) (id : SymbolId) :
    (table.add kind origin source).2.get? id =
      if id = ⟨table.size⟩ then some { kind, origin, source } else table.get? id := by
  cases id
  simp [add, get?, size, Array.getElem?_push]

theorem bind_of_isBound {table : SymbolTable} {id : SymbolId} {symbol : Symbol}
    (known : table.get? id = some symbol) (bound : symbol.isBound = true) (site : DeclSite)
    (span : Span) : table.bind id site span = .ok (.alreadyBound, table) := by
  simp [SymbolTable.bind, SymbolTable.get, known, Except.map, bound]

theorem bind_of_not_isBound {table : SymbolTable} {id : SymbolId} {symbol : Symbol}
    (known : table.get? id = some symbol) (free : symbol.isBound = false) (site : DeclSite)
    (span : Span) : table.bind id site span = .ok (.bound, { table with
      symbols := table.symbols.setIfInBounds id.index (symbol.boundTo site span) }) := by
  simp [SymbolTable.bind, SymbolTable.get, known, Except.map, free]

end SymbolTable

end Relabel
