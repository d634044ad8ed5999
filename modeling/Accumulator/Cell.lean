import Accumulator.Opcode
import Accumulator.Text.Decimal
import Accumulator.Word

/-!
Memory cells. A cell holds an opcode and possibly a value, which is the operand
of an instruction or a datum. The index is the address the cell was laid out
at; execution reports it and never follows it.
-/

namespace Accumulator

structure Cell where
  index : Word
  opcode : Opcode
  value : Option Word
  deriving DecidableEq, Repr

namespace Cell

/-- What the instruction register holds before the first fetch. -/
def idle : Cell := ⟨0, .noOperation, none⟩

instance : Inhabited Cell := ⟨idle⟩

/-- The index, the mnemonic and the value if there is one, one blank between. -/
def text (c : Cell) : List Char :=
  Text.Decimal.digits c.index.toNat ++ ' ' :: c.opcode.mnemonic.toList ++
    match c.value with
    | none => []
    | some v => ' ' :: Text.Decimal.digits v.toNat

instance : ToString Cell := ⟨fun c => String.ofList c.text⟩

/-- The value as data: a cell without one reads as zero. -/
def datum (c : Cell) : Word := c.value.getD 0

end Cell

end Accumulator
