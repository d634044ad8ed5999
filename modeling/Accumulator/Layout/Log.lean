import Accumulator.Layout.Resolve
import Accumulator.Log

/-!
The log of an assembly. It lists the names, then follows the resolution step by
step and ends where the resolution fails.
-/

namespace Accumulator

open Source

namespace Layout

def logEntry (level : Log.Level) (message : String) (fields : List (String × String)) :
    Log.Entry :=
  ⟨level, message, ("stage", "translation") :: fields⟩

def symbolEntry (s : Symbol) : Log.Entry :=
  logEntry .trace "symbol"
    [("name", s.name), ("kind", s.kind.name), ("address", toString s.address.toNat),
     ("line", toString s.line)]

/-- The entries of the interrupt handler, and whether it could be resolved. -/
def handlerEntries (l : Layout) : List Log.Entry × Bool :=
  match l.handler with
  | none => ([], true)
  | some h =>
    match l.symbols.labelAddress? h.target with
    | none => ([], false)
    | some address =>
      ([logEntry .debug "resolve interrupt vector"
        [("target", h.target), ("address", toString address.toNat)]], true)

def resolvedEntries (operand : Operand) (value : Option Word) : List Log.Entry :=
  match operand, value with
  | .symbol name, some address =>
    [logEntry .trace "resolve symbol" [("symbol", name), ("address", toString address.toNat)]]
  | _, _ => []

def cellEntry (c : Cell) : Log.Entry :=
  let value := match c.value with
    | none => "None"
    | some w => s!"Some({w.toNat})"
  logEntry .trace "append record"
    [("index", toString c.index.toNat), ("opcode", c.opcode.mnemonic), ("value", value)]

/-- The entries of the slots from the given address on, up to the first that cannot be resolved. -/
def slotEntries (table : SymbolTable) (address : Nat) : List Slot → List Log.Entry
  | [] => [logEntry .debug "translation finished"
      [("records", toString address), ("symbols", toString table.size)]]
  | s :: rest =>
    match s.cell table address with
    | .error _ => []
    | .ok c =>
      resolvedEntries s.operand c.value ++ cellEntry c :: slotEntries table (address + 1) rest

def log (l : Layout) : List Log.Entry :=
  let (entries, resolved) := l.handlerEntries
  l.symbols.symbols.map symbolEntry ++ entries ++
    if resolved then slotEntries l.symbols 0 l.slots.toList else []

end Layout

/-- The log of assembling a source text. Nothing is logged before the text is laid out. -/
def assemblyLog (source : List Char) : List Log.Entry :=
  match Layout.ofSource source with
  | .ok l => l.log
  | .error _ => []

end Accumulator
