import Accumulator.Opcode
import Accumulator.Word

/-!
The phases of an instruction and the faults that stop the machine in one of
them.
-/

namespace Accumulator

/-- The micro-steps of an instruction, each of which takes one tick. -/
inductive Phase where
  /-- Checks for an interrupt and fetches an instruction. -/
  | fetch
  /-- Decodes the instruction, and executes it unless it accesses memory. -/
  | decode
  | access
  deriving DecidableEq, Repr

inductive Fault where
  /-- Input was asked for and none is pending. -/
  | endOfInput
  | outsideMemory (address : Word)
  /-- The opcode means nothing in the phase, for instance because a datum was fetched. -/
  | invalidOpcode (opcode : Opcode) (phase : Phase) (address : Word)
  | invalidPhase (code : Nat)
  | missingOperand (opcode : Opcode) (address : Word)
  | divisionByZero
  | returnOutsideInterrupt (address : Word)
  deriving DecidableEq, Repr

namespace Phase

def code : Phase → Nat
  | fetch => 0
  | decode => 1
  | access => 2

def name : Phase → String
  | fetch => "Fetch"
  | decode => "Decode"
  | access => "Access"

def ofCode : Nat → Except Fault Phase
  | 0 => .ok fetch
  | 1 => .ok decode
  | 2 => .ok access
  | n => .error (.invalidPhase n)

theorem ofCode_code (p : Phase) : ofCode p.code = .ok p := by
  cases p <;> rfl

end Phase

namespace Fault

def message : Fault → String
  | endOfInput => "end of input"
  | outsideMemory address => s!"memory error: address {address.toNat} is outside of the memory"
  | invalidOpcode opcode phase address =>
    s!"opcode {opcode} at address {address.toNat} cannot be executed in step {phase.name}"
  | invalidPhase code => s!"invalid step counter value {code}"
  | missingOperand opcode address => s!"{opcode} at address {address.toNat} has no operand"
  | divisionByZero => "division by zero"
  | returnOutsideInterrupt address =>
    s!"RET at address {address.toNat} outside of an interrupt handler"

/-- Running out of input ends a program that is driven by input; all else is a failure. -/
def isFatal : Fault → Bool
  | endOfInput => false
  | _ => true

end Fault

end Accumulator
