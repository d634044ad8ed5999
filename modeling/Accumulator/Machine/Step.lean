import Accumulator.Machine

/-!
One micro-step of the machine. A pending symbol interrupts the program between
two instructions if there is a handler and it is not running already. A step
causes at most one event. It is over as soon as something in it fails, and then
the machine is as it was left at that point.
-/

namespace Accumulator

/-- What an observer of the machine is told. -/
inductive Event where
  | interruptEnter (returnAddress vector : Word)
  | interruptExit (returnAddress : Word)
  | input (symbol : Word)
  | output (symbol : Word)
  | memoryChange (address datum : Word)
  | halt (address : Word)
  deriving DecidableEq, Repr

inductive Status where
  | running
  | halted
  deriving DecidableEq, Repr

structure Step where
  machine : Machine
  result : Except Fault Status
  event : Option Event := none

namespace Machine

/-- A step that goes no further. -/
def fail (m : Machine) (f : Fault) : Step := ⟨m, .error f, none⟩

def proceed (m : Machine) (phase : Phase) (event : Option Event) : Step :=
  ⟨{ m with phase }, .ok .running, event⟩

/-- A step that ends its instruction. -/
def finish (m : Machine) : Step := m.proceed .fetch none

/-- Performs an operation of the data path and goes on with what it gives. -/
def attempt {α : Type} (m : Machine) (operation : Operation α) (next : α → Machine → Step) : Step :=
  match operation m with
  | .ok a m' => next a m'
  | .error f m' => m'.fail f

/-- A step that ends its instruction with an operation. -/
def finishWith (m : Machine) (operation : Operation Unit) : Step :=
  m.attempt operation fun _ m' => m'.finish

/-- Goes on with the operand of the instruction, which must have one. -/
def withOperand (m : Machine) (next : Word → Step) : Step :=
  match m.instruction.value with
  | some w => next w
  | none => m.fail (.missingOperand m.instruction.opcode m.instruction.index)

def failOpcode (m : Machine) : Step :=
  m.fail (.invalidOpcode m.instruction.opcode m.phase m.instruction.index)

def enterInterrupt (m : Machine) (vector : Word) : Step :=
  let m' := m.saveAccumulator
  { machine := { m' with
      interrupted := true
      savedProgramCounter := m.programCounter
      programCounter := vector }
    result := .ok .running
    event := some (.interruptEnter m.programCounter vector) }

/-- The address of the handler, if a pending symbol is to interrupt the program now. -/
def interruption? (m : Machine) : Option Word :=
  if m.pending.isSome && !m.interrupted then m.vector else none

def fetch (m : Machine) : Step :=
  match m.interruption? with
  | some vector => m.enterInterrupt vector
  | none =>
    match m.cellAt m.programCounter with
    | .error f => m.fail f
    | .ok c =>
      proceed { m with instruction := c, programCounter := m.programCounter + 1 } .decode none

def saveStep (m : Machine) : Step :=
  m.attempt save fun _ m' => m'.proceed .fetch (some (.memoryChange m'.dataAddress m'.accumulator))

def inputStep (m : Machine) : Step :=
  m.attempt (accept m.pending) fun symbol m' =>
    proceed { m' with pending := none } .fetch (some (.input symbol))

def exitInterrupt (m : Machine) : Step :=
  if m.interrupted then
    let m' := m.restoreAccumulator
    proceed { m' with interrupted := false, programCounter := m.savedProgramCounter } .fetch
      (some (.interruptExit m.savedProgramCounter))
  else m.fail (.returnOutsideInterrupt m.instruction.index)

def decode (m : Machine) : Step :=
  match m.instruction.opcode with
  | .halt => ⟨m, .ok .halted, some (.halt m.instruction.index)⟩
  | .noOperation => finish { m with programCounter := m.programCounter + 1 }
  | .jump => m.withOperand fun target => finish { m with programCounter := target }
  | .jumpIfZero => m.withOperand fun target =>
    if m.zero then finish { m with programCounter := target } else m.finish
  | .ret => m.exitInterrupt
  | .load | .save | .setAddress | .add | .subtract | .modulo =>
    m.withOperand fun address => (m.setDataAddress address).proceed .access none
  | .loadIndirect => (m.setDataAddress m.accumulator).proceed .access none
  | .saveIndirect => m.saveStep
  | .push => m.withOperand fun w => (m.load w).finish
  | .increment => m.finishWith (compute .add (.immediate 1))
  | .compare => m.withOperand fun w => m.finishWith (compute .compare (.immediate w))
  | .input => m.inputStep
  | .output => m.emit.proceed .fetch (some (.output m.accumulator))
  | .string | .number | .buffer | .vector => m.failOpcode

def access (m : Machine) : Step :=
  match m.instruction.opcode with
  | .load | .loadIndirect => m.finishWith (loadFrom .memory)
  | .save => m.saveStep
  | .setAddress => m.finishWith followDataAddress
  | .add => m.finishWith (compute .add .memory)
  | .subtract => m.finishWith (compute .subtract .memory)
  | .modulo => m.finishWith (compute .modulo .memory)
  | _ => m.failOpcode

def step (m : Machine) : Step :=
  match m.phase with
  | .fetch => m.fetch
  | .decode => m.decode
  | .access => m.access

end Machine

end Accumulator
