/-!
Machine words: 32 bits, kept unsigned. A literal becomes a word by two's
complement. Data literals are signed, operands may be written signed or
unsigned, so the two readings differ in range and agree where both apply.
-/

namespace Accumulator

abbrev Word := UInt32

namespace Word

/-- The number of words, which is also the number of addresses. -/
def count : Nat := 0x100000000

/-- The word with the same remainder modulo `2 ^ 32`. -/
def ofInt (n : Int) : Word := UInt32.ofBitVec (BitVec.ofInt 32 n)

/-- A data literal: an integer in the signed range. -/
def ofSigned? (n : Int) : Option Word :=
  if -0x80000000 ≤ n ∧ n < 0x80000000 then some (ofInt n) else none

/-- An operand literal: an integer in the signed or the unsigned range. -/
def ofOperand? (n : Int) : Option Word :=
  if -0x80000000 ≤ n ∧ n < 0x100000000 then some (ofInt n) else none

/-- The two's complement reading of a word. -/
def signed (w : Word) : Int := w.toBitVec.toInt

/-- A word as an output symbol: the character below 256, decimal digits above. -/
def symbolText (w : Word) : String :=
  if w < 256 then String.singleton (Char.ofNat w.toNat) else toString w.toNat

end Word

end Accumulator
