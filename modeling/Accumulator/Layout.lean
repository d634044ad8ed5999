import Accumulator.Source.Line
import Accumulator.Source.Symbol
import Accumulator.Text.Line

/-!
Laying out a source text. Every statement lays out a block of slots, and a name
stands for the number of slots before it. Slots still hold names where the
source does, because a name may be used before its definition.
-/

namespace Accumulator

open Source Text

/-- A memory cell whose operand may still be a name. -/
structure Slot where
  opcode : Opcode
  operand : Operand
  /-- The source line that laid out the slot. -/
  line : Nat
  deriving DecidableEq, Repr

structure Handler where
  name : String
  target : String
  line : Nat
  deriving DecidableEq, Repr

inductive Block where
  | instruction (opcode : Opcode) (operand : Operand)
  | number (value : Word)
  | string (text : List Char)
  | buffer (size : Nat)
  deriving DecidableEq, Repr

namespace Block

def size : Block → Nat
  | instruction _ _ => 1
  | number _ => 1
  | string text => text.length + 1
  | buffer size => size

def datum (op : Opcode) (line : Nat) (w : Word) : Slot := ⟨op, .literal w, line⟩

/-- The slots of the block, all from one source line. -/
def slots (line : Nat) : Block → List Slot
  | instruction op operand => [⟨op, operand, line⟩]
  | number w => [datum .number line w]
  | string text =>
    datum .string line (UInt32.ofNat text.length) :: text.map fun c => datum .string line c.val
  | buffer size => List.replicate size (datum .buffer line 0)

theorem length_slots (line : Nat) (b : Block) : (b.slots line).length = b.size := by
  cases b <;> simp [slots, size]

end Block

structure Layout where
  /-- The section that the next line belongs to. -/
  sec : Source.Section := .code
  slots : Array Slot := #[]
  symbols : SymbolTable := {}
  handler : Option Handler := none
  deriving DecidableEq, Repr

namespace Layout

/-- Fails if so many further slots could not be addressed. -/
def reserve (l : Layout) (n : Nat) : Except Cause Unit :=
  if l.slots.size + n ≤ Word.count then .ok () else .error (.layoutTooLarge l.slots.size n)

def append (l : Layout) (line : Nat) (b : Block) : Layout :=
  { l with slots := l.slots ++ b.slots line }

/-- Lets a name stand for the next slot. -/
def define (l : Layout) (name : String) (kind : SymbolKind) (line : Nat) : Except Cause Layout :=
  if l.slots.size < Word.count then
    match l.symbols.define ⟨name, kind, UInt32.ofNat l.slots.size, line⟩ with
    | .ok symbols => .ok { l with symbols }
    | .error first => .error (.duplicateSymbol name first.line)
  else .error (.layoutTooLarge l.slots.size 0)

/-- Lays out a variable: its name and its block. -/
def addVariable (l : Layout) (name : String) (line : Nat) (b : Block) : Except Cause Layout := do
  l.reserve b.size
  let l ← l.define name .variable line
  return l.append line b

/-- The size of a buffer. Whatever is not a number of cells from one up is an invalid size. -/
def bufferSize (text : String) : Except Cause Nat :=
  match Decimal.readInt text.toList with
  | .ok n =>
    if 1 ≤ n ∧ n < Word.count then .ok n.toNat else .error (.invalidBufferSize text)
  | .error _ => .error (.invalidBufferSize text)

def numberValue (text : String) : Except Cause Word := do
  match Word.ofSigned? (← readLiteral text) with
  | some w => .ok w
  | none => .error (.literalOutOfRange text)

def declare (l : Layout) (name : String) (line : Nat) : Directive → Except Cause Layout
  | .vector target =>
    match l.handler with
    | some first => .error (.duplicateVector first.line)
    | none => .ok { l with handler := some ⟨name, target, line⟩ }
  | .number literal => do l.addVariable name line (.number (← numberValue literal))
  | .string text => l.addVariable name line (.string text.toList)
  | .buffer size => do l.addVariable name line (.buffer (← bufferSize size))

/-- Starts a section. Code cannot follow data. -/
def enter (l : Layout) : Source.Section → Except Cause Layout
  | .data => .ok { l with sec := .data }
  | .code => if l.sec = .data then .error .codeAfterData else .ok l

def addStatement (l : Layout) (line : Nat) : Statement → Except Error Layout
  | .marker start => (l.enter start).mapError Error.ofCause
  | .label name => (l.define name .label line).mapError Error.ofCause
  | .declaration name directive =>
    (l.declare name line directive).mapError fun c =>
      (Error.ofCause c).within s!"declaration of '{name}'"
  | .instruction op operand =>
    ((l.reserve 1).mapError Error.ofCause).map fun _ => l.append line (.instruction op operand)

def addLine (l : Layout) (number : Nat) (line : List Char) : Except Error Layout :=
  match Statement.read l.sec (significant line) with
  | .error c => .error ((Error.ofCause c).atLine number)
  | .ok none => .ok l
  | .ok (some s) => (l.addStatement number s).mapError (Error.atLine number)

/-- Adds source lines, the first of which has the given number. -/
def addLines (number : Nat) (l : Layout) : List (List Char) → Except Error Layout
  | [] => .ok l
  | line :: rest =>
    match l.addLine number line with
    | .ok l => addLines (number + 1) l rest
    | .error e => .error e

def ofSource (source : List Char) : Except Error Layout := addLines 1 {} (lines source)

end Layout

end Accumulator
