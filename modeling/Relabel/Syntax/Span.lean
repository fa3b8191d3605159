namespace Relabel

/-- A range of offsets in a source text. -/
structure Span where
  start : Nat
  stop : Nat
deriving DecidableEq, Repr

namespace Span

/-- The span of generated code. -/
def dummy : Span := ⟨0, 0⟩

def isDummy (span : Span) : Bool := span == dummy

def text (span : Span) : String := s!"{span.start}..{span.stop}"

end Span

end Relabel
