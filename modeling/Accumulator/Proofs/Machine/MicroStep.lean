import Accumulator.Proofs.Machine.Instruction

/-!
What a micro-step can do. The cases say when each of them arises, what it
changes and what an observer is told. Everything that holds along a session is
derived from them, so no later proof takes the control unit apart again.
-/

namespace Accumulator

/-- Opcodes that work on the registers alone, of which no observer is told. -/
def Opcode.isSilent : Opcode → Bool
  | .jump | .jumpIfZero | .noOperation | .load | .loadIndirect | .push | .setAddress
  | .add | .subtract | .modulo | .increment | .compare => true
  | _ => false

namespace Machine

/-- Whether the machine is in the phase in which its instruction has its effect. -/
def Executes (m : Machine) : Prop :=
  m.phase = if m.instruction.opcode.accessesMemory then .access else .decode

/-- What stops the machine. -/
inductive Refuses (m : Machine) : Fault → Prop where
  | fetch (hphase : m.phase = .fetch) (hcell : m.memory[m.programCounter.toNat]? = none) :
    Refuses m (.outsideMemory m.programCounter)
  | operand (hphase : m.phase = .decode) (hoperand : m.instruction.opcode.takesOperand = true)
    (hvalue : m.instruction.value = none) :
    Refuses m (.missingOperand m.instruction.opcode m.instruction.index)
  | directive (hphase : m.phase = .decode) (hdirective : m.instruction.opcode.isDirective = true) :
    Refuses m (.invalidOpcode m.instruction.opcode .decode m.instruction.index)
  | noAccess (hphase : m.phase = .access)
    (haccess : m.instruction.opcode.accessesMemory = false) :
    Refuses m (.invalidOpcode m.instruction.opcode .access m.instruction.index)
  | data (hexecutes : m.Executes)
    (hdata : m.instruction.opcode.accessesMemory = true ∨ m.instruction.opcode = .saveIndirect)
    (hcell : m.memory[m.dataAddress.toNat]? = none) :
    Refuses m (.outsideMemory m.dataAddress)
  | division (hphase : m.phase = .access) (hmodulo : m.instruction.opcode = .modulo)
    (hzero : m.held m.dataAddress = .ok 0) :
    Refuses m .divisionByZero
  | input (hphase : m.phase = .decode) (hinput : m.instruction.opcode = .input)
    (hpending : m.pending = none) :
    Refuses m .endOfInput
  | exit (hphase : m.phase = .decode) (hret : m.instruction.opcode = .ret)
    (hidle : m.interrupted = false) :
    Refuses m (.returnOutsideInterrupt m.instruction.index)

/-- What the machine can do in one micro-step. -/
inductive MicroStep (m : Machine) : Step → Prop where
  | fail {f : Fault} (hrefuses : m.Refuses f) : MicroStep m (m.fail f)
  | enter {v : Word} (hphase : m.phase = .fetch) (hpending : m.pending.isSome = true)
    (hidle : m.interrupted = false) (hvector : m.vector = some v) :
    MicroStep m (m.enterInterrupt v)
  | fetch {c : Cell} (hphase : m.phase = .fetch) (hquiet : m.interruption? = none)
    (hcell : m.memory[m.programCounter.toNat]? = some c) :
    MicroStep m ((m.fetched c).proceed .decode none)
  | address {a : Word} (hphase : m.phase = .decode)
    (haccess : m.instruction.opcode.accessesMemory = true) :
    MicroStep m ((m.setDataAddress a).proceed .access none)
  | halt (hphase : m.phase = .decode) (hhalt : m.instruction.opcode = .halt) :
    MicroStep m ⟨m, .ok .halted, some (.halt m.instruction.index)⟩
  | compute (pc ac da : Word) (z : Bool) (hexecutes : m.Executes)
    (hsilent : m.instruction.opcode.isSilent = true) :
    MicroStep m
      (finish { m with programCounter := pc, accumulator := ac, dataAddress := da, zero := z })
  | store {memory : Array Cell} (hexecutes : m.Executes)
    (hsave : m.instruction.opcode = .save ∨ m.instruction.opcode = .saveIndirect)
    (hwritten : m.written m.dataAddress m.accumulator = .ok memory) :
    MicroStep m
      (proceed { m with memory } .fetch (some (.memoryChange m.dataAddress m.accumulator)))
  | input {symbol : Word} (hphase : m.phase = .decode) (hinput : m.instruction.opcode = .input)
    (hpending : m.pending = some symbol) :
    MicroStep m
      (proceed { m.load symbol with pending := none } .fetch (some (.input symbol)))
  | output (hphase : m.phase = .decode) (houtput : m.instruction.opcode = .output) :
    MicroStep m (m.emit.proceed .fetch (some (.output m.accumulator)))
  | exit (hphase : m.phase = .decode) (hret : m.instruction.opcode = .ret)
    (hinterrupted : m.interrupted = true) :
    MicroStep m
      (proceed { m.restoreAccumulator with
          interrupted := false, programCounter := m.savedProgramCounter }
        .fetch (some (.interruptExit m.savedProgramCounter)))

variable {m : Machine}

theorem executes_of_access (hphase : m.phase = .access)
    (haccess : m.instruction.opcode.accessesMemory = true) : m.Executes := by
  simp only [Executes, haccess, if_true, hphase]

theorem executes_of_decode (hphase : m.phase = .decode)
    (hcheap : m.instruction.opcode.accessesMemory = false) : m.Executes := by
  simp [Executes, hcheap, hphase]

theorem microStep_fetch (hphase : m.phase = .fetch) : MicroStep m m.fetch := by
  unfold Machine.fetch
  cases hinterruption : m.interruption? with
  | some v =>
    unfold interruption? at hinterruption
    split at hinterruption
    next hready =>
      rw [Bool.and_eq_true, Bool.not_eq_true'] at hready
      exact .enter hphase hready.1 hready.2 hinterruption
    next => cases hinterruption
  | none =>
    unfold cellAt
    cases hcell : m.memory[m.programCounter.toNat]? with
    | none => exact .fail (.fetch hphase hcell)
    | some c => exact .fetch hphase hinterruption hcell

theorem microStep_withOperand {op : Opcode} {next : Word → Step} (hphase : m.phase = .decode)
    (hop : m.instruction.opcode = op) (hoperand : op.takesOperand = true)
    (hnext : ∀ w, MicroStep m (next w)) : MicroStep m (m.withOperand next) := by
  unfold withOperand
  cases hvalue : m.instruction.value with
  | none => exact .fail (.operand hphase (hop ▸ hoperand) hvalue)
  | some w => exact hnext w

/-- An operation on the registers that is done as soon as it has been decoded. -/
theorem microStep_silent {op : Opcode} (hphase : m.phase = .decode)
    (hop : m.instruction.opcode = op) (hcheap : op.accessesMemory = false)
    (hsilent : op.isSilent = true) (pc ac da : Word) (z : Bool) :
    MicroStep m
      (finish { m with programCounter := pc, accumulator := ac, dataAddress := da, zero := z }) :=
  .compute pc ac da z (executes_of_decode hphase (hop ▸ hcheap)) (hop ▸ hsilent)

/-- An operation that fails has left the machine as it was, so nothing but its fault remains. -/
theorem microStep_attempt {α : Type} {operation : Operation α} {next : α → Machine → Step}
    (hatomic : operation.Atomic) (hok : ∀ a n, operation m = .ok a n → MicroStep m (next a n))
    (hfails : ∀ f, operation m = .error f m → m.Refuses f) :
    MicroStep m (m.attempt operation next) := by
  unfold attempt
  cases hresult : operation m with
  | ok a n => exact hok a n hresult
  | error f n =>
    obtain rfl : n = m := hatomic m f n hresult
    exact .fail (hfails f hresult)

theorem microStep_saveStep (hexecutes : m.Executes)
    (hsave : m.instruction.opcode = .save ∨ m.instruction.opcode = .saveIndirect) :
    MicroStep m m.saveStep := by
  have hdata : m.instruction.opcode.accessesMemory = true ∨
      m.instruction.opcode = .saveIndirect := by
    rcases hsave with hsave | hsave
    · exact .inl (by rw [hsave]; rfl)
    · exact .inr hsave
  refine microStep_attempt atomic_save (fun _ n hok => ?_) (fun f hfails => ?_)
  · obtain ⟨memory, hwritten, rfl⟩ := save_eq_ok_iff.1 hok
    exact .store hexecutes hsave hwritten
  · obtain ⟨hwritten, -⟩ := save_eq_error_iff.1 hfails
    obtain ⟨hcell, rfl⟩ := written_eq_error_iff.1 hwritten
    exact .data hexecutes hdata hcell

/-- An operation that looks up a datum in memory and then goes on with it. -/
theorem microStep_datum {operation : Operation Unit} {next : Word → Operation Unit}
    (hlooks : operation = .look (·.operandFrom .memory) >>= next) (hatomic : operation.Atomic)
    (hexecutes : m.Executes) (haccess : m.instruction.opcode.accessesMemory = true)
    (hok : ∀ w n, next w m = .ok () n → MicroStep m n.finish)
    (hfails : ∀ w f, m.held m.dataAddress = .ok w → next w m = .error f m → m.Refuses f) :
    MicroStep m (m.finishWith operation) := by
  subst hlooks
  refine microStep_attempt hatomic (fun _ n h => ?_) (fun f h => ?_)
  · obtain ⟨w, -, hnext⟩ := Operation.look_bind_eq_ok_iff.1 h
    exact hok w n hnext
  · rcases Operation.look_bind_eq_error_iff.1 h with ⟨hdatum, -⟩ | ⟨w, hdatum, hnext⟩
    · rw [operandFrom_memory] at hdatum
      obtain ⟨hcell, rfl⟩ := held_eq_error_iff.1 hdatum
      exact .data hexecutes (.inl haccess) hcell
    · rw [operandFrom_memory] at hdatum
      exact hfails w f hdatum hnext

/-- An operation that cannot fail once it has its datum. -/
theorem microStep_silent_datum {operation : Operation Unit} {next : Word → Operation Unit}
    (hlooks : operation = .look (·.operandFrom .memory) >>= next) (hatomic : operation.Atomic)
    (hphase : m.phase = .access) (haccess : m.instruction.opcode.accessesMemory = true)
    (hsilent : m.instruction.opcode.isSilent = true)
    (hnext : ∀ w, ∃ ac da z,
      next w m = .ok () { m with accumulator := ac, dataAddress := da, zero := z }) :
    MicroStep m (m.finishWith operation) := by
  have hexecutes := executes_of_access hphase haccess
  refine microStep_datum hlooks hatomic hexecutes haccess ?_ ?_
  · intro w n hok
    obtain ⟨ac, da, z, hw⟩ := hnext w
    rw [hw] at hok
    cases hok
    exact .compute m.programCounter ac da z hexecutes hsilent
  · intro w f _ hfails
    obtain ⟨ac, da, z, hw⟩ := hnext w
    rw [hw] at hfails
    cases hfails

theorem microStep_inputStep (hphase : m.phase = .decode)
    (hinput : m.instruction.opcode = .input) : MicroStep m m.inputStep := by
  refine microStep_attempt (atomic_accept m.pending) (fun symbol n hok => ?_) (fun f hfails => ?_)
  · obtain ⟨hpending, rfl⟩ := accept_eq_ok_iff.1 hok
    exact .input hphase hinput hpending
  · obtain ⟨hpending, rfl, -⟩ := accept_eq_error_iff.1 hfails
    exact .input hphase hinput hpending

theorem microStep_decode (hphase : m.phase = .decode) : MicroStep m m.decode := by
  unfold decode
  cases hop : m.instruction.opcode with
  | halt => exact .halt hphase hop
  | noOperation => exact microStep_silent hphase hop rfl rfl _ _ _ _
  | jump | push =>
    refine microStep_withOperand hphase hop rfl fun w => ?_
    exact microStep_silent hphase hop rfl rfl _ _ _ _
  | jumpIfZero =>
    refine microStep_withOperand hphase hop rfl fun target => ?_
    split
    · exact microStep_silent hphase hop rfl rfl _ _ _ _
    · exact microStep_silent hphase hop rfl rfl _ _ _ _
  | ret =>
    change MicroStep m m.exitInterrupt
    unfold exitInterrupt
    cases hinterrupted : m.interrupted with
    | true => exact .exit hphase hop hinterrupted
    | false => exact .fail (.exit hphase hop hinterrupted)
  | load | save | setAddress | add | subtract | modulo =>
    refine microStep_withOperand hphase hop rfl fun a => ?_
    exact .address hphase (by rw [hop]; rfl)
  | loadIndirect => exact .address hphase (by rw [hop]; rfl)
  | saveIndirect =>
    exact microStep_saveStep (executes_of_decode hphase (by rw [hop]; rfl)) (.inr hop)
  | increment => exact microStep_silent hphase hop rfl rfl _ _ _ _
  | compare =>
    refine microStep_withOperand hphase hop rfl fun w => ?_
    exact microStep_silent hphase hop rfl rfl _ _ _ _
  | input => exact microStep_inputStep hphase hop
  | output => exact .output hphase hop
  | string | number | buffer | vector =>
    change MicroStep m (m.fail (.invalidOpcode _ m.phase _))
    rw [hphase]
    exact .fail (.directive hphase (by rw [hop]; rfl))

theorem microStep_access (hphase : m.phase = .access) : MicroStep m m.access := by
  unfold access
  cases hop : m.instruction.opcode with
  | save => exact microStep_saveStep (executes_of_access hphase (by rw [hop]; rfl)) (.inl hop)
  | load | loadIndirect =>
    exact microStep_silent_datum rfl (atomic_loadFrom .memory) hphase (by rw [hop]; rfl)
      (by rw [hop]; rfl) fun w => ⟨_, _, _, rfl⟩
  | setAddress =>
    exact microStep_silent_datum rfl atomic_followDataAddress hphase (by rw [hop]; rfl)
      (by rw [hop]; rfl) fun w => ⟨_, _, _, rfl⟩
  | add | subtract =>
    exact microStep_silent_datum rfl (atomic_compute _ .memory) hphase (by rw [hop]; rfl)
      (by rw [hop]; rfl) fun w => ⟨_, _, _, rfl⟩
  | modulo =>
    have haccess : m.instruction.opcode.accessesMemory = true := by rw [hop]; rfl
    have hexecutes := executes_of_access hphase haccess
    refine microStep_datum rfl (atomic_compute .modulo .memory) hexecutes haccess ?_ ?_
    · intro w n hcombine
      obtain ⟨-, rfl⟩ := combine_modulo_eq_ok_iff.1 hcombine
      exact .compute _ _ _ _ hexecutes (by rw [hop]; rfl)
    · intro w f hdatum hfails
      obtain ⟨rfl, rfl, -⟩ := combine_modulo_eq_error_iff.1 hfails
      exact .division hphase hop hdatum
  | _ =>
    -- the other opcodes are done when they have been decoded
    change MicroStep m (m.fail (.invalidOpcode _ m.phase _))
    rw [hphase]
    exact .fail (.noAccess hphase (by rw [hop]; rfl))

/-- An `INPUT` that was decoded reads. -/
theorem step_of_input (hphase : m.phase = .decode) (hinput : m.instruction.opcode = .input) :
    m.step = m.inputStep := by
  simp only [step, hphase, decode, hinput]

/-- A micro-step is one of these cases. -/
theorem microStep (m : Machine) : MicroStep m m.step := by
  unfold step
  cases hphase : m.phase with
  | fetch => exact microStep_fetch hphase
  | decode => exact microStep_decode hphase
  | access => exact microStep_access hphase

end Machine

end Accumulator
