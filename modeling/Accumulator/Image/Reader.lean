import Accumulator.Checked
import Accumulator.Image
import Accumulator.Text.Scan

/-!
Reading a written image. Lines may end in any run of line feeds and carriage
returns, and the parts of a record may stand any run of blanks and tabs apart.
Records are listed in address order. A record starts with a number; behind the
last one stands whatever does not.
-/

namespace Accumulator.Image

open Text

/-- What can be wrong with a record that follows the grammar. -/
inductive Defect where
  | indexMismatch (expected : Nat) (found : Word)
  | unknownOpcode (name : String)
  deriving DecidableEq, Repr

def Defect.message : Defect → String
  | indexMismatch expected found =>
    s!"expected a record for address {expected}, found one for {found.toNat}"
  | unknownOpcode name => s!"unknown opcode '{name}'"

instance : ToString Defect := ⟨Defect.message⟩

abbrev ReadError := Located Defect

def isMnemonicChar (c : Char) : Bool := c.isAlphanum || c == '_'

/-- A number on a line of its own, if there is one. -/
def readVector (cs : List Char) : Option Word × List Char :=
  match Decimal.readBelow? Word.count cs with
  | none => (none, cs)
  | some (n, rest) =>
    match skip? isLineEnd rest with
    | some rest => (some (UInt32.ofNat n), rest)
    | none => (none, cs)

def readOpcode (cs : List Char) : Except ReadError (Opcode × List Char) :=
  let name := String.ofList (cs.takeWhile isMnemonicChar)
  match Opcode.ofMnemonic? name with
  | some op => .ok (op, cs.dropWhile isMnemonicChar)
  | none => .error { rest := cs, cause := some (.unknownOpcode name) }

/-- The value of a record, if there is one behind the blanks. -/
def readValue (cs : List Char) : Option Word × List Char :=
  match (skip? isSpacing cs).bind (Decimal.readBelow? Word.count) with
  | some (n, rest) => (some (UInt32.ofNat n), rest)
  | none => (none, cs)

def readContents (index : Nat) (cs : List Char) : Except ReadError (Cell × List Char) := do
  let cs ← skip isSpacing cs
  let (op, cs) ← readOpcode cs
  let (value, cs) := readValue cs
  let cs ← skip isLineEnd cs
  return (⟨UInt32.ofNat index, op, value⟩, cs)

/-- A record, unless no number stands here. -/
def readRecord (cs : List Char) : Except ReadError (Option (Cell × List Char)) :=
  match Decimal.readBelow? Word.count cs with
  | none => .ok none
  | some (index, rest) =>
    match readContents index rest with
    | .ok record => .ok (some record)
    | .error e => .error { e with part := some "record" }

theorem length_readValue (cs : List Char) : (readValue cs).2.length ≤ cs.length := by
  unfold readValue
  split
  next n rest h =>
    obtain ⟨behind, hs, hr⟩ := Option.bind_eq_some_iff.1 h
    have := length_of_skip? hs
    have := Decimal.length_of_readBelow? hr
    simp only
    omega
  next => exact Nat.le_refl _

theorem length_of_readOpcode {cs : List Char} {r : Opcode × List Char}
    (h : readOpcode cs = .ok r) : r.2.length ≤ cs.length := by
  simp only [readOpcode] at h
  split at h
  · cases h
    exact (List.dropWhile_suffix _).sublist.length_le
  · cases h

theorem length_of_readContents {index : Nat} {cs rest : List Char} {c : Cell}
    (h : readContents index cs = .ok (c, rest)) : rest.length < cs.length := by
  obtain ⟨afterIndex, h₁, h⟩ := Checked.bind_eq_ok_iff.1 h
  obtain ⟨opcode, h₂, h⟩ := Checked.bind_eq_ok_iff.1 h
  obtain ⟨afterRecord, h₃, h⟩ := Checked.bind_eq_ok_iff.1 h
  cases h
  have := length_of_skip h₁
  have := length_of_readOpcode h₂
  have := length_readValue opcode.2
  have : rest.length < (readValue opcode.2).2.length := length_of_skip h₃
  omega

theorem length_of_readRecord {cs rest : List Char} {c : Cell}
    (h : readRecord cs = .ok (some (c, rest))) : rest.length < cs.length := by
  unfold readRecord at h
  split at h
  · cases h
  next index behind hi =>
    have := Decimal.length_of_readBelow? hi
    split at h
    next record hc =>
      cases h
      have := length_of_readContents hc
      omega
    next => cases h

/-- Reads records into a memory as long as there are any. -/
def readRecords (memory : Array Cell) (cs : List Char) :
    Except ReadError (Array Cell × List Char) :=
  match _h : readRecord cs with
  | .error e => .error e
  | .ok none => .ok (memory, cs)
  | .ok (some (c, rest)) =>
    if c.index.toNat = memory.size then readRecords (memory.push c) rest
    else .error { rest := cs, cause := some (.indexMismatch memory.size c.index) }
termination_by cs.length
decreasing_by exact length_of_readRecord _h

/-- Reads a whole text as an image. Blanks and line ends may follow it. -/
def read (text : List Char) : Except ReadError Image := do
  let cs ← expectLine imageMarker text
  let cs ← expectLine vectorMarker cs
  let (vector, cs) := readVector cs
  let cs ← expectLine memoryMarker cs
  let (memory, cs) ← readRecords #[] cs
  let cs ← expect endMarker cs
  let cs := skipAnySpace cs
  if cs.isEmpty then return ⟨vector, memory⟩ else throw { rest := cs }

end Accumulator.Image
