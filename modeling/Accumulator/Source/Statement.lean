import Accumulator.Opcode
import Accumulator.Word

/-!
The statements of the source language, one to a line. A program is a code
section and then a data section; the section decides how a line is read.
-/

namespace Accumulator.Source

inductive Section where
  | code
  | data
  deriving DecidableEq, Repr

/-- The operand of an instruction. A name stands for an address, which is known once the whole
source has been read. -/
inductive Operand where
  | absent
  | literal (value : Word)
  | symbol (name : String)
  deriving DecidableEq, Repr

/-- What a data declaration lays out. Arguments are kept as written. -/
inductive Directive where
  /-- One cell with a signed number. -/
  | number (literal : String)
  /-- A cell with the length of the text, then a cell for each character. -/
  | string (text : String)
  /-- As many zero cells as the size says. -/
  | buffer (size : String)
  /-- No cell: the label at which the interrupt handler starts. -/
  | vector (target : String)
  deriving DecidableEq, Repr

inductive Statement where
  | marker (start : Section)
  | label (name : String)
  | declaration (name : String) (directive : Directive)
  | instruction (opcode : Opcode) (operand : Operand)
  deriving DecidableEq, Repr

end Accumulator.Source
