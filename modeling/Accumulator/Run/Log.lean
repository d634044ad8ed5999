import Accumulator.Log
import Accumulator.Run

/-!
The log of a run: its limits, what the machine did in each micro-step, the
traced states, and how the run stopped. A run that fails has no last entry.
-/

namespace Accumulator

namespace Machine

def unitEntry (unit : String) (level : Log.Level) (message : String)
    (fields : List (String × String)) : Log.Entry :=
  ⟨level, message, ("unit", unit) :: fields⟩

/-- The entry of an event after which the machine is `m`. Changes of memory have none. -/
def eventEntry? (m : Machine) : Event → Option Log.Entry
  | .interruptEnter returnAddress vector =>
    some <| unitEntry "control" .info "interrupt"
      [("return_address", toString returnAddress.toNat), ("vector", toString vector.toNat)]
  | .interruptExit returnAddress =>
    some <| unitEntry "control" .info "return from interrupt"
      [("return_address", toString returnAddress.toNat)]
  | .input symbol =>
    some <| unitEntry "datapath" .info "input" [("symbol", symbol.symbolText)]
  | .output symbol =>
    some <| unitEntry "datapath" .info "output"
      [("symbol", symbol.symbolText), ("buffer", m.outputText)]
  | .memoryChange _ _ => none
  | .halt address =>
    some <| unitEntry "control" .info "halt" [("address", toString address.toNat)]

/-- The entry of a micro-step that the machine took in the given phase. -/
def stepEntry? (phase : Phase) (s : Step) : Option Log.Entry :=
  match s.result, s.event with
  | .error _, _ => none
  | .ok _, some event => s.machine.eventEntry? event
  | .ok _, none =>
    if phase = .fetch then
      some <| unitEntry "control" .trace "fetch" [("instruction", toString s.machine.instruction)]
    else none

end Machine

namespace Run

def logEntry (level : Log.Level) (message : String) (fields : List (String × String)) :
    Log.Entry :=
  ⟨level, message, ("stage", "simulation") :: fields⟩

def startEntry (limits : Limits) (r : Run) : Log.Entry :=
  logEntry .info "start simulation"
    [("cells", toString r.machine.memory.size), ("events", toString r.arrivals.length),
     ("limit", toString limits.ticks)]

def endEntry (r : Run) : Log.Entry :=
  logEntry .info "end simulation"
    [("output", r.machine.outputText), ("instructions", toString r.instructions),
     ("ticks", toString r.machine.tick)]

/-- The entry of a state after a micro-step: its trace, or at the limit that there is no more. -/
def traceEntries (limits : Limits) (m : Machine) : List Log.Entry :=
  if m.tick < limits.trace then [logEntry .debug m.snapshot.text []]
  else if m.tick = limits.trace then
    [logEntry .warning "debug limit exceeded" [("debug_limit", toString limits.trace)]]
  else []

def tickEntries (limits : Limits) (r : Run) : List Log.Entry :=
  let m := r.prepare.machine
  let s := m.step
  let behind := match s.result with
    | .ok .running => traceEntries limits s.machine
    | .error .endOfInput => [logEntry .warning "input buffer is empty" [("tick", toString m.tick)]]
    | _ => []
  (Machine.stepEntry? m.phase s).toList ++ behind

/-- The entries of a run that goes on for at most so many ticks. -/
def logFrom (limits : Limits) : Nat → Run → List Log.Entry
  | 0, r =>
    [logEntry .warning "tick limit exceeded" [("limit", toString limits.ticks)], r.endEntry]
  | n + 1, r =>
    r.tickEntries limits ++
      match r.next limits with
      | (r, none) => logFrom limits n r
      | (r, some (.stopped _)) => [r.endEntry]
      | (_, some (.failed _)) => []

def log (limits : Limits) (r : Run) : List Log.Entry :=
  r.startEntry limits :: logFrom limits (limits.ticks - r.machine.tick) r

end Run

end Accumulator
