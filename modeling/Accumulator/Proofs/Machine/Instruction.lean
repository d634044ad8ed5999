import Accumulator.Checked
import Accumulator.Proofs.Machine.DataPath
import Accumulator.Proofs.Machine.Outcome

/-!
The machine of whole instructions. An instruction has its effect at once: it
reads the registers as they are when it is fetched, and where it fails it has no
effect. The micro-steps of the control unit refine this machine. From the fetch
phase they take two ticks for an instruction, three if it accesses memory, and
then the machine is as the effect says.
-/

namespace Accumulator

/-- The ticks of an instruction that is not interrupted. -/
def Opcode.ticks (op : Opcode) : Nat := if op.accessesMemory then 3 else 2

/-- The machine after the instruction was fetched, but for its phase. -/
def Machine.fetched (m : Machine) (c : Cell) : Machine :=
  { m with instruction := c, programCounter := m.programCounter + 1 }

/-- The word in memory at an address. A cell without a value holds zero. -/
def Machine.held (m : Machine) (address : Word) : Except Fault Word :=
  match m.memory[address.toNat]? with
  | some c => .ok (c.value.getD 0)
  | none => .error (.outsideMemory address)

/-- The memory after a word was written to an address. -/
def Machine.written (m : Machine) (address w : Word) : Except Fault (Array Cell) :=
  if address.toNat < m.memory.size then
    .ok (m.memory.modify address.toNat fun c => { c with value := some w })
  else .error (.outsideMemory address)

namespace Cell

/-- The operand of an instruction that must have one. -/
def operand (c : Cell) : Except Fault Word :=
  match c.value with
  | some v => .ok v
  | none => .error (.missingOperand c.opcode c.index)

/-- The effect of an instruction on the machine that is about to fetch it. -/
def effect (c : Cell) (m : Machine) : Except Fault Outcome :=
  let n := m.fetched c
  match c.opcode with
  | .halt =>
    .ok { machine := { n with phase := .decode }, status := .halted, events := [.halt c.index] }
  | .noOperation => .ok { machine := { n with programCounter := m.programCounter + 2 } }
  | .jump => do
    let v ← c.operand
    .ok { machine := { n with programCounter := v } }
  | .jumpIfZero => do
    let v ← c.operand
    .ok { machine := { n with
      programCounter := if m.zero then v else m.programCounter + 1 } }
  | .ret =>
    if m.interrupted then
      let ac := m.savedAccumulator
      .ok {
        machine := { n with
          programCounter := m.savedProgramCounter
          accumulator := ac
          zero := ac == 0
          interrupted := false }
        events := [.interruptExit m.savedProgramCounter] }
    else .error (.returnOutsideInterrupt c.index)
  | .load => do
    let v ← c.operand
    let ac ← m.held v
    .ok { machine := { n with dataAddress := v, accumulator := ac, zero := ac == 0 } }
  | .save => do
    let v ← c.operand
    let memory ← m.written v m.accumulator
    .ok {
      machine := { n with dataAddress := v, memory }
      events := [.memoryChange v m.accumulator] }
  | .loadIndirect => do
    let ac ← m.held m.accumulator
    .ok { machine := { n with dataAddress := m.accumulator, accumulator := ac, zero := ac == 0 } }
  | .saveIndirect => do
    let memory ← m.written m.dataAddress m.accumulator
    .ok {
      machine := { n with memory }
      events := [.memoryChange m.dataAddress m.accumulator] }
  | .push => do
    let ac ← c.operand
    .ok { machine := { n with accumulator := ac, zero := ac == 0 } }
  | .setAddress => do
    let v ← c.operand
    let address ← m.held v
    .ok { machine := { n with dataAddress := address } }
  | .add => do
    let v ← c.operand
    let w ← m.held v
    let ac := m.accumulator + w
    .ok { machine := { n with dataAddress := v, accumulator := ac, zero := ac == 0 } }
  | .subtract => do
    let v ← c.operand
    let w ← m.held v
    let ac := m.accumulator - w
    .ok { machine := { n with dataAddress := v, accumulator := ac, zero := ac == 0 } }
  | .modulo => do
    let v ← c.operand
    let w ← m.held v
    if w = 0 then .error .divisionByZero
    else
      let ac := m.accumulator % w
      .ok { machine := { n with dataAddress := v, accumulator := ac, zero := ac == 0 } }
  | .increment =>
    let ac := m.accumulator + 1
    .ok { machine := { n with accumulator := ac, zero := ac == 0 } }
  | .compare => do
    let v ← c.operand
    .ok { machine := { n with zero := m.accumulator == v } }
  | .input =>
    match m.pending with
    | some symbol =>
      .ok {
        machine := { n with accumulator := symbol, zero := symbol == 0, pending := none }
        events := [.input symbol] }
    | none => .error .endOfInput
  | .output =>
    .ok {
      machine := { n with output := m.output.push m.accumulator }
      events := [.output m.accumulator] }
  | .string | .number | .buffer | .vector =>
    .error (.invalidOpcode c.opcode .decode c.index)

end Cell

namespace Machine

def latched (m : Machine) (c : Cell) : Machine := { m.fetched c with phase := .decode }

def addressed (m : Machine) (c : Cell) (address : Word) : Machine :=
  { m.fetched c with phase := .access, dataAddress := address }

end Machine

/-- The address that an instruction which accesses memory sends to the data path. -/
def Cell.address (c : Cell) (m : Machine) : Except Fault Word :=
  if c.opcode = .loadIndirect then .ok m.accumulator else c.operand

namespace Machine

variable {m : Machine} {c : Cell}

theorem cellAt_eq_ok_iff {address : Word} :
    m.cellAt address = .ok c ↔ m.memory[address.toNat]? = some c := by
  unfold cellAt
  split
  next d hd => simp [hd]
  next hd => simp [hd]

theorem interruption?_eq_none_iff :
    m.interruption? = none ↔ m.pending = none ∨ m.interrupted = true ∨ m.vector = none := by
  unfold interruption?
  cases m.pending <;> cases m.interrupted <;> simp

/-- A fetch that no interrupt precedes only fills the instruction register. -/
theorem step_of_fetch (hfetch : m.phase = .fetch) (hquiet : m.interruption? = none)
    (hcell : m.cellAt m.programCounter = .ok c) :
    m.step = (m.latched c).proceed .decode none := by
  simp only [step, hfetch, fetch, hquiet, hcell]
  rfl

theorem exists_at_fetch (hfetch : m.phase = .fetch) :
    ∃ n : Machine, m = { n with phase := .fetch } :=
  ⟨m, by rw [← hfetch]⟩

theorem outcome_withOperand (m : Machine) (next : Word → Step) :
    (m.withOperand next).outcome = m.instruction.operand >>= fun v => (next v).outcome := by
  unfold withOperand Cell.operand
  cases m.instruction.value with
  | none => rfl
  | some v => rfl

theorem save_apply (m : Machine) :
    save m =
      match m.written m.dataAddress m.accumulator with
      | .ok memory => .ok () { m with memory }
      | .error f => .error f m := by
  have hsave : save m = store m.dataAddress m.accumulator m := rfl
  rw [hsave, store_apply]
  unfold written
  split
  next => rfl
  next => rfl

theorem save_eq_ok_iff {n : Machine} :
    save m = .ok () n ↔
      ∃ memory, m.written m.dataAddress m.accumulator = .ok memory ∧ n = { m with memory } := by
  rw [save_apply]
  cases m.written m.dataAddress m.accumulator with
  | ok memory => simp [eq_comm]
  | error f => simp

theorem save_eq_error_iff {n : Machine} {f : Fault} :
    save m = .error f n ↔ m.written m.dataAddress m.accumulator = .error f ∧ n = m := by
  rw [save_apply]
  cases m.written m.dataAddress m.accumulator with
  | ok memory => simp
  | error e => simp [eq_comm]

theorem outcome_saveStep (m : Machine) :
    m.saveStep.outcome = m.written m.dataAddress m.accumulator >>= fun memory =>
      .ok {
        machine := { m with memory, phase := .fetch }
        events := [.memoryChange m.dataAddress m.accumulator] } := by
  unfold saveStep attempt
  rw [save_apply]
  cases m.written m.dataAddress m.accumulator with
  | ok memory => rfl
  | error f => rfl

theorem outcome_exitInterrupt (m : Machine) :
    m.exitInterrupt.outcome =
      if m.interrupted then
        .ok {
          machine := { m.load m.savedAccumulator with
            interrupted := false
            programCounter := m.savedProgramCounter
            phase := .fetch }
          events := [.interruptExit m.savedProgramCounter] }
      else .error (.returnOutsideInterrupt m.instruction.index) := by
  unfold exitInterrupt
  cases m.interrupted with
  | true => rfl
  | false => rfl

theorem outcome_inputStep (m : Machine) :
    m.inputStep.outcome =
      match m.pending with
      | some symbol =>
        .ok {
          machine := { m.load symbol with pending := none, phase := .fetch }
          events := [.input symbol] }
      | none => .error .endOfInput := by
  unfold inputStep
  cases m.pending with
  | none => rfl
  | some symbol => rfl

/-- Without an access phase, decoding is all there is to the effect. -/
theorem outcome_decode (hfetch : m.phase = .fetch) (hcheap : c.opcode.accessesMemory = false) :
    (m.latched c).step.outcome = c.effect m := by
  obtain ⟨n, rfl⟩ := exists_at_fetch hfetch
  change (({ n with phase := .fetch } : Machine).latched c).decode.outcome = _
  cases hop : c.opcode with
  | load | save | setAddress | add | subtract | modulo | loadIndirect =>
    -- these go on to the access phase
    rw [hop] at hcheap
    cases hcheap
  | halt | output | increment =>
    simp only [decode, latched, fetched, hop, Cell.effect]
    rfl
  | noOperation =>
    -- the counter is advanced once by the fetch and once more here
    have hnext : n.programCounter + 1 + 1 = n.programCounter + 2 := UInt32.add_assoc _ 1 1
    simp only [decode, latched, fetched, hop, Cell.effect, hnext]
    rfl
  | jump | push | compare =>
    simp only [decode, latched, fetched, hop, Cell.effect, outcome_withOperand]
    rfl
  | jumpIfZero =>
    simp only [decode, latched, fetched, hop, Cell.effect, outcome_withOperand]
    cases n.zero with
    | true => rfl
    | false => rfl
  | ret =>
    simp only [decode, latched, fetched, hop, Cell.effect, outcome_exitInterrupt]
    rfl
  | saveIndirect =>
    simp only [decode, latched, fetched, hop, Cell.effect, outcome_saveStep]
    rfl
  | input =>
    simp only [decode, latched, fetched, hop, Cell.effect, outcome_inputStep]
    rfl
  | string | number | buffer | vector =>
    simp only [decode, latched, fetched, hop, Cell.effect, failOpcode]
    rfl

/-- Decoding an instruction that accesses memory only sends its address, if it has one. -/
theorem step_latched (haccess : c.opcode.accessesMemory = true) :
    (m.latched c).step =
      match c.address m with
      | .ok address => (m.addressed c address).proceed .access none
      | .error f => (m.latched c).fail f := by
  change (m.latched c).decode = _
  have hinstruction : (m.latched c).instruction = c := rfl
  cases hop : c.opcode with
  | loadIndirect =>
    simp only [decode, hinstruction, hop, Cell.address, if_true]
    rfl
  | load | save | setAddress | add | subtract | modulo =>
    simp only [decode, hinstruction, hop, Cell.address, reduceCtorEq, if_false, withOperand,
      Cell.operand]
    cases c.value with
    | none => rfl
    | some v => rfl
  | _ =>
    rw [hop] at haccess
    cases haccess

theorem datumAt_eq_held (m : Machine) (address : Word) : m.datumAt address = m.held address := by
  unfold datumAt held
  cases m.memory[address.toNat]? with
  | none => rfl
  | some c => rfl

theorem operandFrom_memory (m : Machine) : m.operandFrom .memory = m.held m.dataAddress :=
  datumAt_eq_held m m.dataAddress

theorem held_eq_error_iff {address : Word} {f : Fault} :
    m.held address = .error f ↔
      m.memory[address.toNat]? = none ∧ f = .outsideMemory address := by
  unfold held
  cases m.memory[address.toNat]? with
  | none => simp [eq_comm]
  | some c => simp

theorem written_eq_ok_iff {address w : Word} {memory : Array Cell} :
    m.written address w = .ok memory ↔ address.toNat < m.memory.size ∧
      memory = m.memory.modify address.toNat fun c => { c with value := some w } := by
  unfold written
  by_cases hbound : address.toNat < m.memory.size
  · simp [hbound, eq_comm]
  · simp [hbound]

theorem written_eq_error_iff {address w : Word} {f : Fault} :
    m.written address w = .error f ↔
      m.memory[address.toNat]? = none ∧ f = .outsideMemory address := by
  unfold written
  by_cases hbound : address.toNat < m.memory.size
  · simp [hbound]
  · simp [hbound, eq_comm]

/-- An operation that goes on with the word that the data address points to. -/
theorem outcome_datum (m : Machine) (next : Word → Operation Unit) :
    (m.finishWith (.look (·.operandFrom .memory) >>= next)).outcome =
      m.held m.dataAddress >>= fun w => (m.finishWith (next w)).outcome := by
  unfold finishWith
  rw [attempt_look_bind, operandFrom_memory]
  cases m.held m.dataAddress with
  | error f => rfl
  | ok w => rfl

theorem outcome_loadFrom_memory (m : Machine) :
    (m.finishWith (loadFrom .memory)).outcome =
      m.held m.dataAddress >>= fun w => (m.load w).finish.outcome :=
  outcome_datum m fun w => modify fun n : Machine => n.load w

theorem outcome_followDataAddress (m : Machine) :
    (m.finishWith followDataAddress).outcome =
      m.held m.dataAddress >>= fun w => (m.setDataAddress w).finish.outcome :=
  outcome_datum m fun w => modify fun n : Machine => n.setDataAddress w

theorem outcome_compute_memory (m : Machine) (operation : Arithmetic) :
    (m.finishWith (compute operation .memory)).outcome =
      m.held m.dataAddress >>= fun w => (m.finishWith (combine operation w)).outcome :=
  outcome_datum m (combine operation)

theorem outcome_modulo (m : Machine) (w : Word) :
    (m.finishWith (combine .modulo w)).outcome =
      if w = 0 then .error .divisionByZero
      else (m.load (m.accumulator % w)).finish.outcome := by
  unfold finishWith attempt
  rw [combine_modulo_apply]
  by_cases hw : w = 0
  · simp only [hw, if_true]
    rfl
  · simp only [hw, if_false]

/-- With an access phase, the effect is what that phase does with the address. -/
theorem effect_eq_access (hfetch : m.phase = .fetch) (haccess : c.opcode.accessesMemory = true) :
    c.effect m = c.address m >>= fun address => (m.addressed c address).step.outcome := by
  obtain ⟨n, rfl⟩ := exists_at_fetch hfetch
  change _ = _ >>= fun address => (addressed _ c address).access.outcome
  -- the instruction is the one that was fetched, even if it overwrites its own cell
  have hinstruction (address : Word) :
      (({ n with phase := .fetch } : Machine).addressed c address).instruction = c := rfl
  cases hop : c.opcode with
  | load =>
    simp only [Cell.effect, Cell.address, access, hinstruction, hop, outcome_loadFrom_memory,
      reduceCtorEq, if_false]
    rfl
  | loadIndirect =>
    simp only [Cell.effect, Cell.address, access, hinstruction, hop, outcome_loadFrom_memory,
      if_true]
    rfl
  | save =>
    simp only [Cell.effect, Cell.address, access, hinstruction, hop, outcome_saveStep,
      reduceCtorEq, if_false]
    rfl
  | setAddress =>
    simp only [Cell.effect, Cell.address, access, hinstruction, hop, outcome_followDataAddress,
      reduceCtorEq, if_false]
    rfl
  | add | subtract =>
    simp only [Cell.effect, Cell.address, access, hinstruction, hop, outcome_compute_memory,
      reduceCtorEq, if_false]
    rfl
  | modulo =>
    simp only [Cell.effect, Cell.address, access, hinstruction, hop, outcome_compute_memory,
      outcome_modulo, reduceCtorEq, if_false]
    rfl
  | _ =>
    rw [hop] at haccess
    cases haccess

theorem steps_ticks (hfetch : m.phase = .fetch) (hquiet : m.interruption? = none)
    (hcell : m.cellAt m.programCounter = .ok c) : m.steps c.opcode.ticks = c.effect m := by
  have hlatch (n : Nat) : m.steps (n + 1) = (m.latched c).steps n :=
    steps_succ_of_running (step_of_fetch hfetch hquiet hcell)
  unfold Opcode.ticks
  cases haccess : c.opcode.accessesMemory with
  | false =>
    change m.steps 2 = _
    rw [hlatch, steps_one, outcome_decode hfetch haccess]
  | true =>
    change m.steps 3 = _
    rw [hlatch, effect_eq_access hfetch haccess]
    have hdecode := step_latched (m := m) haccess
    cases haddress : c.address m with
    | error f =>
      -- without an operand the second of the three micro-steps fails already
      rw [haddress] at hdecode
      exact steps_succ_of_error (congrArg Step.result hdecode)
    | ok address =>
      rw [haddress] at hdecode
      have hsend : (m.latched c).steps 2 = (m.addressed c address).steps 1 :=
        steps_succ_of_running hdecode
      rw [hsend, steps_one]
      rfl

/-- An instruction halts the machine or leads it back to the fetch phase. -/
theorem phase_of_effect {o : Outcome} (hfetch : m.phase = .fetch) (heffect : c.effect m = .ok o) :
    if c.opcode = .halt then o.status = .halted
    else o.status = .running ∧ o.machine.phase = .fetch := by
  cases hop : c.opcode with
  | halt =>
    simp only [Cell.effect, hop] at heffect
    cases heffect
    rfl
  | noOperation | increment | output =>
    simp only [Cell.effect, hop] at heffect
    cases heffect
    exact ⟨rfl, hfetch⟩
  | jump | jumpIfZero | push | compare | loadIndirect | saveIndirect =>
    simp only [Cell.effect, hop] at heffect
    obtain ⟨v, -, heffect⟩ := Checked.bind_eq_ok_iff.1 heffect
    cases heffect
    exact ⟨rfl, hfetch⟩
  | load | save | setAddress | add | subtract =>
    simp only [Cell.effect, hop] at heffect
    obtain ⟨v, -, heffect⟩ := Checked.bind_eq_ok_iff.1 heffect
    obtain ⟨w, -, heffect⟩ := Checked.bind_eq_ok_iff.1 heffect
    cases heffect
    exact ⟨rfl, hfetch⟩
  | modulo =>
    simp only [Cell.effect, hop] at heffect
    obtain ⟨v, -, heffect⟩ := Checked.bind_eq_ok_iff.1 heffect
    obtain ⟨w, -, heffect⟩ := Checked.bind_eq_ok_iff.1 heffect
    split at heffect
    · cases heffect
    · cases heffect
      exact ⟨rfl, hfetch⟩
  | ret =>
    simp only [Cell.effect, hop] at heffect
    split at heffect
    · cases heffect
      exact ⟨rfl, hfetch⟩
    · cases heffect
  | input =>
    simp only [Cell.effect, hop] at heffect
    split at heffect
    · cases heffect
      exact ⟨rfl, hfetch⟩
    · cases heffect
  | string | number | buffer | vector =>
    simp only [Cell.effect, hop] at heffect
    cases heffect

/-- The machine stays in the range of its addresses when it advances, even past a cell that is
skipped. -/
theorem toNat_next {n : Nat} (hn : n ≤ 2) (hsize : m.memory.size < Word.count - 1)
    (hcell : m.memory[m.programCounter.toNat]? = some c) :
    (m.programCounter + UInt32.ofNat n).toNat = m.programCounter.toNat + n := by
  have hbound : m.programCounter.toNat < m.memory.size := by
    obtain ⟨h, -⟩ := Array.getElem?_eq_some_iff.1 hcell
    exact h
  unfold Word.count at hsize
  have hsum : m.programCounter.toNat + n < 2 ^ 32 := by omega
  rw [UInt32.toNat_add, UInt32.toNat_ofNat', Nat.add_mod_mod, Nat.mod_eq_of_lt hsum]

/-- What the machine does between two fetches: it enters its handler, or an instruction has its
effect. -/
def instruct (m : Machine) : Except Fault Outcome :=
  match m.interruption? with
  | some vector =>
    .ok {
      machine := { m with
        savedAccumulator := m.accumulator
        savedProgramCounter := m.programCounter
        programCounter := vector
        interrupted := true }
      events := [.interruptEnter m.programCounter vector] }
  | none => m.cellAt m.programCounter >>= fun c => c.effect m

def instructTicks (m : Machine) : Nat :=
  match m.interruption?, m.cellAt m.programCounter with
  | none, .ok c => c.opcode.ticks
  | _, _ => 1

/-- The ticks of so many instructions and interrupts. -/
def runTicks : Nat → Machine → Nat
  | 0, _ => 0
  | n + 1, m =>
    m.instructTicks +
      match m.instruct with
      | .ok ⟨m', .running, _⟩ => runTicks n m'
      | _ => 0

theorem steps_instructTicks (hfetch : m.phase = .fetch) :
    m.steps m.instructTicks = m.instruct := by
  unfold instructTicks instruct
  cases hinterruption : m.interruption? with
  | some vector =>
    have hstep : m.step = m.enterInterrupt vector := by
      simp only [step, hfetch, fetch, hinterruption]
    change m.steps 1 = _
    rw [steps_one, hstep]
    rfl
  | none =>
    cases hcell : m.cellAt m.programCounter with
    | error f =>
      have hstep : m.step = m.fail f := by
        simp only [step, hfetch, fetch, hinterruption, hcell]
      change m.steps 1 = _
      rw [steps_one, hstep]
      rfl
    | ok c => exact steps_ticks hfetch hinterruption hcell

theorem phase_of_instruct {o : Outcome} (hfetch : m.phase = .fetch) (hinstruct : m.instruct = .ok o)
    (hrunning : o.status = .running) : o.machine.phase = .fetch := by
  unfold instruct at hinstruct
  cases hinterruption : m.interruption? with
  | some vector =>
    rw [hinterruption] at hinstruct
    cases hinstruct
    exact hfetch
  | none =>
    rw [hinterruption] at hinstruct
    obtain ⟨c, -, heffect⟩ := Checked.bind_eq_ok_iff.1 hinstruct
    have hphase := phase_of_effect hfetch heffect
    by_cases hhalt : c.opcode = .halt
    · rw [if_pos hhalt, hrunning] at hphase
      cases hphase
    · rw [if_neg hhalt] at hphase
      exact hphase.2

theorem steps_runTicks (hfetch : m.phase = .fetch) (n : Nat) :
    m.steps (m.runTicks n) = iterate instruct n m := by
  induction n generalizing m with
  | zero => rfl
  | succ n ih =>
    rw [runTicks, steps_add, steps_instructTicks hfetch, iterate]
    cases hinstruct : m.instruct with
    | error f => rfl
    | ok o =>
      change o.andThen (steps _) = o.andThen (iterate instruct n)
      cases hstatus : o.status with
      | halted => rw [Outcome.andThen_of_halted hstatus, Outcome.andThen_of_halted hstatus]
      | running =>
        -- the induction hypothesis asks for the fetch phase, to which every instruction returns
        have hphase := phase_of_instruct hfetch hinstruct hstatus
        rw [Outcome.andThen_of_running hstatus, Outcome.andThen_of_running hstatus, ← ih hphase]
        obtain ⟨m', status, events⟩ := o
        cases hstatus
        rfl

/-- From the fetch phase, and unless an interrupt comes first, the micro-steps of an instruction
have exactly its effect or its fault. They lead back to the fetch phase, except at a halt. The
program counter is advanced without wrapping around. So whole runs agree as well: the micro-steps
of so many instructions and interrupts do what these do one after the other. -/
theorem steps_eq_effect (hfetch : m.phase = .fetch)
    (hquiet : m.pending = none ∨ m.interrupted = true ∨ m.vector = none)
    (hsize : m.memory.size < Word.count - 1)
    (hcell : m.memory[m.programCounter.toNat]? = some c) :
    m.steps c.opcode.ticks = c.effect m ∧
      (∀ o, c.effect m = .ok o →
        if c.opcode = .halt then o.status = .halted
        else o.status = .running ∧ o.machine.phase = .fetch) ∧
      (m.programCounter + 1).toNat = m.programCounter.toNat + 1 ∧
      (m.programCounter + 2).toNat = m.programCounter.toNat + 2 ∧
      ∀ n, m.steps (m.runTicks n) = iterate instruct n m := by
  have hnone : m.interruption? = none := interruption?_eq_none_iff.2 hquiet
  refine ⟨?_, ?_, ?_, ?_, ?_⟩
  · exact steps_ticks hfetch hnone (cellAt_eq_ok_iff.2 hcell)
  · intro o heffect
    exact phase_of_effect hfetch heffect
  · exact toNat_next (n := 1) (by omega) hsize hcell
  · exact toNat_next (n := 2) (by omega) hsize hcell
  · intro n
    exact steps_runTicks hfetch n

/-- A program that puts out two cells of its memory, the second of which has no value. -/
def twoReadings : Machine where
  memory := #[⟨0, .load, some 4⟩, ⟨1, .output, none⟩, ⟨2, .load, some 5⟩, ⟨3, .output, none⟩,
    ⟨4, .number, some 7⟩, ⟨5, .halt, none⟩]

theorem steps_eq_effect_twoReadings :
    twoReadings.steps 3 =
        .ok { machine := { twoReadings with
          accumulator := 7, dataAddress := 4, programCounter := 1
          instruction := ⟨0, .load, some 4⟩ } } ∧
      twoReadings.steps 10 =
        .ok {
          machine := { twoReadings with
            zero := true, dataAddress := 5, output := #[7, 0], programCounter := 4
            instruction := ⟨3, .output, none⟩ }
          events := [.output 7, .output 0] } := by
  obtain ⟨hfirst, -, -, -, hwhole⟩ :=
    steps_eq_effect (m := twoReadings) (c := ⟨0, .load, some 4⟩) rfl (.inl rfl) (by decide) rfl
  have hload : twoReadings.steps 3 = Cell.effect ⟨0, .load, some 4⟩ twoReadings := hfirst
  have hrun : twoReadings.steps 10 = iterate instruct 4 twoReadings := hwhole 4
  rw [hload, hrun]
  exact ⟨rfl, rfl⟩

end Machine

end Accumulator
