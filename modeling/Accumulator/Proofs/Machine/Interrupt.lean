import Accumulator.Proofs.Machine.Instruction
import Accumulator.Proofs.Machine.Session

/-!
What an interrupt leaves behind when its handler only reads the symbol and
returns. The return restores the accumulator by an ordinary load, and a load
sets the zero flag. So the program goes on as if there had been no interrupt
exactly when its flag followed the accumulator before. The result of a
comparison does not survive.
-/

namespace Accumulator.Machine

variable {m : Machine} {v symbol : Word} {reader leaver : Cell}

/-- The machine as if the symbol had been read without an interrupt, its flag set by a load of
the accumulator. -/
def undisturbed (m : Machine) : Machine :=
  { m with pending := none, zero := m.accumulator == 0 }

def entered (m : Machine) (address : Word) : Machine :=
  { m with
    savedAccumulator := m.accumulator
    savedProgramCounter := m.programCounter
    programCounter := address
    interrupted := true }

/-- The machine after `INPUT` has read the symbol. -/
def received (m : Machine) (c : Cell) (symbol : Word) : Machine :=
  { m.fetched c with accumulator := symbol, zero := symbol == 0, pending := none }

/-- The machine after `RET` has left the handler. -/
def resumed (m : Machine) (c : Cell) : Machine :=
  { m.fetched c with
    programCounter := m.savedProgramCounter
    accumulator := m.savedAccumulator
    zero := m.savedAccumulator == 0
    interrupted := false }

theorem steps_enter (hfetch : m.phase = .fetch) (hidle : m.interrupted = false)
    (hpending : m.pending = some symbol) (hvector : m.vector = some v) :
    m.steps 1 = .ok {
      machine := m.entered v
      events := [.interruptEnter m.programCounter v] } := by
  have hinterruption : m.interruption? = some v := by
    simp [interruption?, hidle, hpending, hvector]
  have hticks : m.instructTicks = 1 := by simp only [instructTicks, hinterruption]
  rw [← hticks, steps_instructTicks hfetch]
  simp only [instruct, hinterruption]
  rfl

theorem steps_input (hfetch : m.phase = .fetch) (hinterrupted : m.interrupted = true)
    (hcell : m.cellAt m.programCounter = .ok reader) (hinput : reader.opcode = .input)
    (hpending : m.pending = some symbol) :
    m.steps 2 = .ok { machine := m.received reader symbol, events := [.input symbol] } := by
  have hquiet := interruption?_eq_none_iff.2 (.inr (.inl hinterrupted))
  have hticks : reader.opcode.ticks = 2 := by
    rw [hinput]
    rfl
  rw [← hticks, steps_ticks hfetch hquiet hcell]
  simp only [Cell.effect, hinput, hpending]
  rfl

theorem steps_ret (hfetch : m.phase = .fetch) (hinterrupted : m.interrupted = true)
    (hcell : m.cellAt m.programCounter = .ok leaver) (hret : leaver.opcode = .ret) :
    m.steps 2 = .ok {
      machine := m.resumed leaver
      events := [.interruptExit m.savedProgramCounter] } := by
  have hquiet := interruption?_eq_none_iff.2 (.inr (.inl hinterrupted))
  have hticks : leaver.opcode.ticks = 2 := by
    rw [hret]
    rfl
  rw [← hticks, steps_ticks hfetch hquiet hcell]
  simp only [Cell.effect, hret, hinterrupted, if_true]
  rfl

/-- The five micro-steps of an interrupt: one to enter, two to read and two to return. -/
theorem steps_interrupt (hfetch : m.phase = .fetch) (hidle : m.interrupted = false)
    (hpending : m.pending = some symbol) (hvector : m.vector = some v)
    (hreader : m.memory[v.toNat]? = some reader) (hinput : reader.opcode = .input)
    (hleaver : m.memory[(v + 1).toNat]? = some leaver) (hret : leaver.opcode = .ret) :
    m.steps 5 = .ok {
      machine := ((m.entered v).received reader symbol).resumed leaver
      events := [.interruptEnter m.programCounter v, .input symbol,
        .interruptExit m.programCounter] } := by
  have henter := steps_enter hfetch hidle hpending hvector
  have hread : (m.entered v).steps 2 = _ :=
    steps_input hfetch rfl (cellAt_eq_ok_iff.2 hreader) hinput hpending
  have hleave : ((m.entered v).received reader symbol).steps 2 = _ :=
    steps_ret hfetch rfl (cellAt_eq_ok_iff.2 hleaver) hret
  -- one tick to enter, two for each instruction of the handler
  have hhandle : (m.entered v).steps (2 + 2) = _ := steps_add_of_running hread
  have hwhole : m.steps (1 + 4) = _ := steps_add_of_running henter
  rw [hwhole, hhandle, hleave]
  rfl

/-- Nothing that is live tells the machine from one that was not disturbed. -/
theorem live_resumed (hfetch : m.phase = .fetch) (hidle : m.interrupted = false) :
    (((m.entered v).received reader symbol).resumed leaver).live = m.undisturbed.live := by
  simp only [live, resumed, received, entered, undisturbed, fetched, hfetch, hidle]
  rfl

/-- A handler that reads the symbol and returns leaves the machine as it was, the symbol consumed,
but for the zero flag: the flag is the one that the accumulator gives. From there on the machine
cannot be told from one that was not interrupted and whose flag follows its accumulator. -/
theorem interrupt_transparent_up_to_zero (hfetch : m.phase = .fetch) (hidle : m.interrupted = false)
    (hpending : m.pending = some symbol) (hvector : m.vector = some v)
    (hreader : m.memory[v.toNat]? = some reader) (hinput : reader.opcode = .input)
    (hleaver : m.memory[(v + 1).toNat]? = some leaver) (hret : leaver.opcode = .ret) :
    ∃ n, m.steps 5 = .ok {
        machine := n
        events := [.interruptEnter m.programCounter v, .input symbol,
          .interruptExit m.programCounter] } ∧
      n.phase = .fetch ∧ n.interrupted = false ∧ n.pending = none ∧
      n.programCounter = m.programCounter ∧ n.accumulator = m.accumulator ∧
      n.dataAddress = m.dataAddress ∧ n.memory = m.memory ∧ n.output = m.output ∧
      n.zero = (m.accumulator == 0) ∧ (n.zero = m.zero ↔ m.zero = (m.accumulator == 0)) ∧
      ∀ actions, n.responses actions = m.undisturbed.responses actions ∧
        (n.after actions).live = (m.undisturbed.after actions).live := by
  refine ⟨((m.entered v).received reader symbol).resumed leaver, ?_, hfetch, rfl, rfl, rfl, rfl,
    rfl, rfl, rfl, rfl, eq_comm, ?_⟩
  · exact steps_interrupt hfetch hidle hpending hvector hreader hinput hleaver hret
  · intro actions
    exact session_of_live_eq (live_resumed hfetch hidle) actions

/-- A program that compares and then branches, with a handler that only reads. -/
def comparison : Image where
  vector := some 5
  memory := #[⟨0, .push, some 5⟩, ⟨1, .compare, some 5⟩, ⟨2, .jumpIfZero, some 4⟩,
    ⟨3, .halt, none⟩, ⟨4, .halt, none⟩, ⟨5, .input, none⟩, ⟨6, .ret, none⟩]

/-- The program between its comparison and its branch, when a symbol has arrived. -/
def compared : Machine := (ofImage comparison).after [.step, .step, .step, .step, .input 65]

theorem interrupt_transparent_up_to_zero_compared :
    ∃ n, compared.steps 5 = .ok {
        machine := n
        events := [.interruptEnter 2 5, .input 65, .interruptExit 2] } ∧
      n.programCounter = 2 ∧ n.accumulator = 5 ∧ n.zero = false ∧
      n.memory = comparison.memory := by
  have hfetch : compared.phase = .fetch := by decide
  have hidle : compared.interrupted = false := by decide
  have hpending : compared.pending = some 65 := by decide
  have hvector : compared.vector = some 5 := by decide
  have hreader : compared.memory[(5 : Word).toNat]? = some ⟨5, .input, none⟩ := by decide
  have hleaver : compared.memory[(5 + 1 : Word).toNat]? = some ⟨6, .ret, none⟩ := by decide
  obtain ⟨n, hsteps, -, -, -, hpc, hac, -, hmemory, -, hzero, -⟩ :=
    interrupt_transparent_up_to_zero hfetch hidle hpending hvector hreader rfl hleaver rfl
  exact ⟨n, hsteps, hpc, hac, hzero, hmemory⟩

/-- The comparison succeeds, but after the interrupt its branch is not taken. -/
theorem interrupt_loses_comparison :
    compared.phase = .fetch ∧ compared.interrupted = false ∧ compared.pending = some 65 ∧
      compared.vector = some 5 ∧ compared.memory[5]? = some ⟨5, .input, none⟩ ∧
      compared.memory[6]? = some ⟨6, .ret, none⟩ ∧
      compared.zero = true ∧
      (compared.after (List.replicate 5 .step)).zero = false ∧
      (compared.after (List.replicate 7 .step)).programCounter = 3 ∧
      ((ofImage comparison).after (List.replicate 6 .step)).programCounter = 4 := by
  decide

end Accumulator.Machine
