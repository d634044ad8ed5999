import Accumulator.Image
import Accumulator.Layout

/-!
Assembling a source text: the layout with its names replaced by addresses. The
interrupt handler is resolved first, then the slots in address order.
-/

namespace Accumulator

open Source

def Slot.value (table : SymbolTable) (s : Slot) : Except Error (Option Word) :=
  match s.operand with
  | .absent => .ok none
  | .literal w => .ok (some w)
  | .symbol name =>
    match table.address? name with
    | some address => .ok (some address)
    | none =>
      .error ((Error.ofCause (.unresolvedSymbol name (table.suggestion name))).atLine s.line)

def Slot.cell (table : SymbolTable) (address : Nat) (s : Slot) : Except Error Cell :=
  (s.value table).map fun value => ⟨UInt32.ofNat address, s.opcode, value⟩

/-- The address of the interrupt handler, which must be a label. -/
def Handler.address (table : SymbolTable) (h : Handler) : Except Error Word :=
  match table.labelAddress? h.target with
  | some address => .ok address
  | none =>
    let cause := .unresolvedSymbol h.target (table.labelSuggestion h.target)
    .error (((Error.ofCause cause).within s!"interrupt vector '{h.name}' must name a label").atLine
      h.line)

namespace Layout

def vector (l : Layout) : Except Error (Option Word) :=
  match l.handler with
  | none => .ok none
  | some h => some <$> h.address l.symbols

def memory (l : Layout) : Except Error (List Cell) :=
  l.slots.toList.zipIdx.mapM fun (s, address) => s.cell l.symbols address

def image (l : Layout) : Except Error Image := do
  let vector ← l.vector
  let memory ← l.memory
  return ⟨vector, memory.toArray⟩

end Layout

def assemble (source : List Char) : Except Error Image := do
  (← Layout.ofSource source).image

end Accumulator
