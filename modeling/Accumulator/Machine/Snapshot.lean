import Accumulator.Machine

/-!
Snapshots: the part of the machine's state that a trace shows, and its text.
-/

namespace Accumulator

structure Snapshot where
  tick : Nat
  opcode : Opcode
  phase : Phase
  programCounter : Word
  accumulator : Word
  dataAddress : Word
  zero : Bool
  interrupted : Bool
  deriving DecidableEq, Repr

def Machine.snapshot (m : Machine) : Snapshot where
  tick := m.tick
  opcode := m.instruction.opcode
  phase := m.phase
  programCounter := m.programCounter
  accumulator := m.accumulator
  dataAddress := m.dataAddress
  zero := m.zero
  interrupted := m.interrupted

namespace Snapshot

/-- A number right-aligned in a column of the given width. -/
def column (width n : Nat) : String := String.ofList ((Text.Decimal.digits n).leftpad width ' ')

def text (s : Snapshot) : String :=
  "Tick: " ++ column 4 s.tick ++ " " ++ String.ofList s.opcode.column ++
  " SC: " ++ column 3 s.phase.code ++
  " PC: " ++ column 3 s.programCounter.toNat ++
  " AC: " ++ column 4 s.accumulator.toNat ++
  " DA: " ++ column 3 s.dataAddress.toNat ++
  " ZERO: " ++ column 1 s.zero.toNat ++
  " INTERRUPTED: " ++ column 1 s.interrupted.toNat

end Snapshot

end Accumulator
