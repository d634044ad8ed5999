import Accumulator.Cell
import Accumulator.Text.Decimal

/-!
Code images: the initial memory of a program and the address of its interrupt
handler, if it has one. The written form lists the cells in address order
between four marker lines.
-/

namespace Accumulator

structure Image where
  vector : Option Word := none
  memory : Array Cell := #[]
  deriving DecidableEq, Repr

namespace Image

/-- Whether every cell is indexed by its address, as the reader requires. -/
def Indexed (image : Image) : Prop :=
  ∀ (i : Nat) (c : Cell), image.memory[i]? = some c → c.index.toNat = i

def imageMarker : List Char := "___image___".toList

def vectorMarker : List Char := "___vector___".toList

def memoryMarker : List Char := "___memory___".toList

def endMarker : List Char := "___end___".toList

/-- The line of the interrupt vector, which is missing when there is none. -/
def vectorText : Option Word → List Char
  | none => []
  | some w => Text.Decimal.digits w.toNat ++ ['\n']

def text (image : Image) : List Char :=
  imageMarker ++ '\n' :: vectorMarker ++ '\n' :: vectorText image.vector ++
    memoryMarker ++ '\n' :: (image.memory.toList.flatMap fun c => c.text ++ ['\n']) ++
    endMarker ++ ['\n']

end Image

end Accumulator
