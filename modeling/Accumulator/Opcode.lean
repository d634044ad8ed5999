/-!
Opcodes: the instructions of the machine and the directives that lay out data.
Each has a mnemonic and a numeric code, and no two share either.
-/

namespace Accumulator

inductive Opcode where
  | halt
  | jump
  | jumpIfZero
  /-- Skips the cell that follows it. -/
  | noOperation
  | ret
  | load
  | save
  /-- Loads from the address in the accumulator. -/
  | loadIndirect
  | push
  /-- Loads the data address register from memory. -/
  | setAddress
  /-- Saves to the address in the data address register. -/
  | saveIndirect
  | add
  | subtract
  | modulo
  | increment
  | compare
  | input
  | output
  | string
  | number
  | buffer
  | vector
  deriving DecidableEq, Repr, Inhabited

namespace Opcode

def all : List Opcode :=
  [halt, jump, jumpIfZero, noOperation, ret,
   load, save, loadIndirect, push, setAddress, saveIndirect,
   add, subtract, modulo, increment, compare,
   input, output,
   string, number, buffer, vector]

def mnemonic : Opcode → String
  | halt => "HALT"
  | jump => "JUMP"
  | jumpIfZero => "JZ"
  | noOperation => "NOP"
  | ret => "RET"
  | load => "LOAD"
  | save => "SAVE"
  | loadIndirect => "LOAD_AC"
  | push => "PUSH"
  | setAddress => "SET_DA"
  | saveIndirect => "SAVE_AC"
  | add => "ADD"
  | subtract => "SUB"
  | modulo => "MOD"
  | increment => "INC"
  | compare => "CMP"
  | input => "INPUT"
  | output => "OUTPUT"
  | string => "STRING"
  | number => "NUMBER"
  | buffer => "BUFFER"
  | vector => "VECTOR"

instance : ToString Opcode := ⟨mnemonic⟩

/-- Numeric codes are grouped by tens: control, data movement, arithmetic, input and output,
directives. -/
def code : Opcode → Nat
  | halt => 0
  | jump => 1
  | jumpIfZero => 2
  | noOperation => 3
  | ret => 4
  | load => 10
  | save => 11
  | loadIndirect => 12
  | push => 13
  | setAddress => 14
  | saveIndirect => 15
  | add => 20
  | subtract => 21
  | modulo => 22
  | increment => 23
  | compare => 24
  | input => 30
  | output => 31
  | string => 40
  | number => 41
  | buffer => 42
  | vector => 43

def ofMnemonic? (name : String) : Option Opcode :=
  all.find? (·.mnemonic == name)

def ofCode? (n : Nat) : Option Opcode :=
  all.find? (·.code == n)

def takesOperand : Opcode → Bool
  | jump | jumpIfZero | load | save | push | setAddress
  | add | subtract | modulo | compare => true
  | _ => false

/-- Whether the opcode spends a tick of its own on memory after it is decoded. -/
def accessesMemory : Opcode → Bool
  | load | save | loadIndirect | setAddress | add | subtract | modulo => true
  | _ => false

/-- Directives lay out data and are never executed. -/
def isDirective : Opcode → Bool
  | string | number | buffer | vector => true
  | _ => false

/-- The mnemonic filled up with blanks to a column of seven. -/
def column (op : Opcode) : List Char := op.mnemonic.toList.rightpad 7 ' '

def executableMnemonics : List String :=
  (all.filter (!·.isDirective)).map mnemonic

theorem mem_all (op : Opcode) : op ∈ all := by
  cases op <;> decide

theorem ofMnemonic?_mnemonic (op : Opcode) : ofMnemonic? op.mnemonic = some op := by
  cases op <;> decide

end Opcode

end Accumulator
