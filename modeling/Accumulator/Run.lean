import Accumulator.Arrival
import Accumulator.Machine.Snapshot
import Accumulator.Machine.Step

/-!
Runs of a code image on timed input. At the start of each tick at most one
arrival becomes pending, then the machine takes one micro-step. A run stops when
the program halts, when it asks for input and none is pending, and at the tick
limit; any other fault is its result. Early ticks are traced.
-/

namespace Accumulator

structure Limits where
  /-- The tick at which a run is stopped. -/
  ticks : Nat := 100000
  /-- The tick from which on nothing is traced. -/
  trace : Nat := 200
  deriving DecidableEq, Repr

/-- Why a run stopped without a failure. -/
inductive Stop where
  | halted
  | endOfInput
  | tickLimit
  deriving DecidableEq, Repr

inductive Ending where
  | stopped (reason : Stop)
  | failed (fault : Fault)
  deriving DecidableEq, Repr

structure Report where
  output : String
  /-- The number of ticks that began an instruction or an interrupt. -/
  instructions : Nat
  ticks : Nat
  stop : Stop
  /-- The machine after each traced tick. -/
  trace : Array Snapshot
  deriving DecidableEq, Repr

structure Run where
  machine : Machine
  arrivals : List Arrival
  instructions : Nat := 0
  trace : Array Snapshot := #[]
  /-- What an observer was told so far. -/
  events : Array Event := #[]

namespace Run

def start (image : Image) (arrivals : List Arrival) : Run :=
  { machine := .ofImage image, arrivals }

/-- Makes the next arrival pending if its tick has come. -/
def deliver (r : Run) : Run :=
  match r.arrivals with
  | [] => r
  | a :: rest =>
    if a.tick ≤ r.machine.tick then
      { r with machine := r.machine.arrive a.symbol, arrivals := rest }
    else r

def countInstruction (r : Run) : Run :=
  if r.machine.phase = .fetch then { r with instructions := r.instructions + 1 } else r

/-- All that happens at a tick before the micro-step. -/
def prepare (r : Run) : Run := r.deliver.countInstruction

/-- Takes over what a micro-step did. -/
def observe (r : Run) (s : Step) : Run :=
  { r with machine := s.machine, events := r.events ++ s.event.toList }

/-- Traces the machine if its tick is below the limit. -/
def record (r : Run) (limits : Limits) : Run :=
  if r.machine.tick < limits.trace then { r with trace := r.trace.push r.machine.snapshot } else r

def advance (r : Run) : Run := { r with machine := r.machine.advance }

/-- One tick of the run, and how the run ends if it does so here. -/
def next (limits : Limits) (r : Run) : Run × Option Ending :=
  let r := r.prepare
  let s := r.machine.step
  let r := r.observe s
  match s.result with
  | .ok .running => ((r.record limits).advance, none)
  | .ok .halted => (r, some (.stopped .halted))
  | .error .endOfInput => (r, some (.stopped .endOfInput))
  | .error f => (r, some (.failed f))

/-- Goes on for at most so many ticks. -/
def goOn (limits : Limits) : Nat → Run → Run × Ending
  | 0, r => (r, .stopped .tickLimit)
  | n + 1, r =>
    match r.next limits with
    | (r, none) => goOn limits n r
    | (r, some ending) => (r, ending)

def complete (limits : Limits) (r : Run) : Run × Ending :=
  goOn limits (limits.ticks - r.machine.tick) r

def report (r : Run) (stop : Stop) : Report where
  output := r.machine.outputText
  instructions := r.instructions
  ticks := r.machine.tick
  stop := stop
  trace := r.trace

end Run

def simulate (image : Image) (arrivals : List Arrival) (limits : Limits := {}) :
    Except Fault Report :=
  match (Run.start image arrivals).complete limits with
  | (r, .stopped reason) => .ok (r.report reason)
  | (_, .failed f) => .error f

end Accumulator
