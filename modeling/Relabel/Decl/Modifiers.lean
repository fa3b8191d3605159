namespace Relabel

/-- The modifiers written before a declaration, one bit each. Bits without a name are kept. -/
structure Modifiers where
  bits : UInt16 := 0
deriving DecidableEq, Repr

namespace Modifiers

/-- The names of the modifiers, that of bit 0 first. -/
def names : List String :=
  ["INLINE", "OVERRIDE", "ABSTRACT", "OPEN", "SUSPEND", "EXTERNAL", "OPERATOR", "VARARG",
    "NOINLINE", "CROSSINLINE", "REIFIED"]

/-- Every modifier that has a name. -/
def all : Modifiers := ⟨(1 <<< names.length - 1).toUInt16⟩

/-- Without the bits that have no name. -/
def named (modifiers : Modifiers) : Modifiers := ⟨modifiers.bits &&& all.bits⟩

def unnamed (modifiers : Modifiers) : Modifiers := ⟨modifiers.bits &&& ~~~all.bits⟩

/-- The modifiers with these bits, if each bit has a name. -/
def ofNamedBits? (bits : UInt16) : Option Modifiers :=
  if (unnamed ⟨bits⟩).bits = 0 then some ⟨bits⟩ else none

def has (modifiers : Modifiers) (bit : Nat) : Bool := modifiers.bits.toNat.testBit bit

/-- The names of the bits that are set, in the order of the bits. -/
def present (modifiers : Modifiers) : List String :=
  (names.zipIdx.filter fun (_, bit) => modifiers.has bit).map (·.1)

private def separator : String := " | "

/-- The set modifiers by name; the bits without a name follow as one hexadecimal number. -/
def text (modifiers : Modifiers) : String :=
  let rest := modifiers.unnamed.bits.toNat
  let terms := if rest = 0 then [] else ["0x" ++ String.ofList (Nat.toDigits 16 rest)]
  separator.intercalate (modifiers.present ++ terms)

private def hexDigit? (digit : Char) : Option Nat :=
  if digit.isDigit then some (digit.toNat - '0'.toNat)
  else if 'a' ≤ digit.toLower ∧ digit.toLower ≤ 'f' then some (digit.toLower.toNat - 'a'.toNat + 10)
  else none

private def hex? (digits : List Char) : Option UInt16 := do
  guard !digits.isEmpty
  let value ← digits.foldlM (fun value digit => (hexDigit? digit).map (16 * value + ·)) 0
  guard (value < UInt16.size)
  return value.toUInt16

private def ofTerm? (term : String) : Option UInt16 :=
  match term.toList with
  | '0' :: 'x' :: digits => hex? digits
  | _ => (names.idxOf? term).map fun bit => (1 <<< bit).toUInt16

/-- Reads back what `text` writes. -/
def ofText? (text : String) : Option Modifiers :=
  if text.isEmpty then some {}
  else do
    let terms ← (text.splitOn separator).mapM ofTerm?
    return ⟨terms.foldl (· ||| ·) 0⟩

end Modifiers

end Relabel
