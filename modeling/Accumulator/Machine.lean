import Accumulator.Image
import Accumulator.Machine.Phase

/-!
The state of the machine and the operations of its data path: reading and
writing memory, loading the accumulator, arithmetic, input and output. Each
operation changes the registers that its comment names and no others. One that
fails hands on the machine as well, with whatever it has done to it so far.
-/

namespace Accumulator

structure Machine where
  memory : Array Cell
  accumulator : Word := 0
  savedAccumulator : Word := 0
  dataAddress : Word := 0
  /-- Follows every load of the accumulator, and `CMP` sets it. It is clear until then. -/
  zero : Bool := false
  output : Array Word := #[]
  programCounter : Word := 0
  savedProgramCounter : Word := 0
  /-- The instruction that was fetched last. -/
  instruction : Cell := .idle
  phase : Phase := .fetch
  /-- Whether the interrupt handler runs. Interrupts do not nest. -/
  interrupted : Bool := false
  vector : Option Word := none
  /-- The input symbol that has arrived and was not read yet. -/
  pending : Option Word := none
  tick : Nat := 0
  deriving DecidableEq, Repr

/-- Something that is done with the machine and may fail. In either case it ends with a machine. -/
abbrev Operation (α : Type) : Type := EStateM Fault Machine α

/-- Looks something up in the machine. -/
def Operation.look {α : Type} (query : Machine → Except Fault α) : Operation α := do
  match query (← get) with
  | .ok a => return a
  | .error f => throw f

/-- Where the second operand of an operation comes from. -/
inductive Origin where
  | memory
  | immediate (w : Word)
  deriving DecidableEq, Repr

inductive Arithmetic where
  | add
  | subtract
  | modulo
  /-- Sets the zero flag if the operands are equal and leaves the accumulator alone. -/
  | compare
  deriving DecidableEq, Repr

namespace Machine

def ofImage (image : Image) : Machine := { memory := image.memory, vector := image.vector }

def cellAt (m : Machine) (address : Word) : Except Fault Cell :=
  match m.memory[address.toNat]? with
  | some c => .ok c
  | none => .error (.outsideMemory address)

def datumAt (m : Machine) (address : Word) : Except Fault Word :=
  match m.memory[address.toNat]? with
  | some c => .ok c.datum
  | none => .error (.outsideMemory address)

/-- Overwrites the value of a cell. Its opcode and its index stay. -/
def store (address w : Word) : Operation Unit := do
  let m ← get
  if address.toNat < m.memory.size then
    set { m with memory := m.memory.modify address.toNat fun c => { c with value := some w } }
  else throw (.outsideMemory address)

/-- Loads the accumulator and sets the zero flag accordingly. -/
def load (m : Machine) (w : Word) : Machine := { m with accumulator := w, zero := w == 0 }

def setDataAddress (m : Machine) (address : Word) : Machine := { m with dataAddress := address }

def operandFrom (m : Machine) : Origin → Except Fault Word
  | .memory => m.datumAt m.dataAddress
  | .immediate w => .ok w

def loadFrom (origin : Origin) : Operation Unit := do
  let w ← .look (·.operandFrom origin)
  modify (·.load w)

/-- Stores the accumulator where the data address points. -/
def save : Operation Unit := do
  let m ← get
  store m.dataAddress m.accumulator

/-- Replaces the data address by the word that it points to. -/
def followDataAddress : Operation Unit := do
  let address ← .look (·.operandFrom .memory)
  modify (·.setDataAddress address)

/-- Combines the accumulator with a word, modulo `2 ^ 32`. -/
def combine (operation : Arithmetic) (w : Word) : Operation Unit := do
  let m ← get
  match operation with
  | .add => set (m.load (m.accumulator + w))
  | .subtract => set (m.load (m.accumulator - w))
  | .modulo => if w = 0 then throw .divisionByZero else set (m.load (m.accumulator % w))
  | .compare => set { m with zero := m.accumulator == w }

def compute (operation : Arithmetic) (origin : Origin) : Operation Unit := do
  let w ← .look (·.operandFrom origin)
  combine operation w

/-- Loads the accumulator with an input symbol, if there is one. -/
def accept : Option Word → Operation Word
  | some symbol => do
    modify (·.load symbol)
    return symbol
  | none => throw .endOfInput

def emit (m : Machine) : Machine := { m with output := m.output.push m.accumulator }

def saveAccumulator (m : Machine) : Machine := { m with savedAccumulator := m.accumulator }

def restoreAccumulator (m : Machine) : Machine := m.load m.savedAccumulator

/-- Makes the symbol the pending one, in place of any other. -/
def arrive (m : Machine) (symbol : Word) : Machine := { m with pending := some symbol }

def advance (m : Machine) : Machine := { m with tick := m.tick + 1 }

def outputText (m : Machine) : String :=
  m.output.foldl (fun text w => text ++ w.symbolText) ""

end Machine

end Accumulator
