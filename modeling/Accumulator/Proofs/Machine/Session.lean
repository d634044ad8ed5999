import Accumulator.Proofs.Machine.DataPath

/-!
Sessions: what a driver does with a machine, one action after the other. A
micro-step, a tick of the clock and the arrival of a symbol may come in any
order, and a driver may go on after a fault or a halt. It sees the result and
the event of each action.

Two registers are not always live. The instruction register is written before it
is read again whenever the next phase is a fetch, and so are the saved registers
while no interrupt is handled. Machines that differ in nothing else cannot be
told apart in a session.
-/

namespace Accumulator

inductive Action where
  | step
  | tick
  | input (symbol : Word)
  deriving DecidableEq, Repr

/-- What a driver is told about an action. -/
structure Response where
  result : Except Fault Status
  event : Option Event
  deriving Repr

namespace Machine

def perform (m : Machine) : Action → Step
  | .step => m.step
  | .tick => ⟨m.advance, .ok .running, none⟩
  | .input symbol => ⟨m.arrive symbol, .ok .running, none⟩

def after (m : Machine) (actions : List Action) : Machine :=
  actions.foldl (fun m a => (m.perform a).machine) m

def responses (m : Machine) : List Action → List Response
  | [] => []
  | a :: actions =>
    ⟨(m.perform a).result, (m.perform a).event⟩ :: (m.perform a).machine.responses actions

/-- The machine with a fixed content in the registers that are not live. -/
def live (m : Machine) : Machine :=
  { m with
    instruction := if m.phase = .fetch then .idle else m.instruction
    savedAccumulator := if m.interrupted then m.savedAccumulator else 0
    savedProgramCounter := if m.interrupted then m.savedProgramCounter else 0 }

end Machine

def Step.live (s : Step) : Step := { s with machine := s.machine.live }

theorem Step.live_eq_iff {s t : Step} :
    s.live = t.live ↔
      s.machine.live = t.machine.live ∧ s.result = t.result ∧ s.event = t.event := by
  simp only [Step.live, Step.mk.injEq]

namespace Machine

variable {m : Machine}

theorem live_live (m : Machine) : m.live.live = m.live := by
  cases hphase : m.phase <;> cases hinterrupted : m.interrupted <;>
    simp [live, hphase, hinterrupted]

theorem instruction_live (hphase : m.phase ≠ .fetch) : m.live.instruction = m.instruction :=
  if_neg hphase

/-- The data path works on registers only that are live. -/
theorem aside_live : Aside live where
  memory := fun _ => rfl
  accumulator := fun _ => rfl
  dataAddress := fun _ => rfl
  store := fun _ _ => rfl
  load := fun _ _ => rfl
  compare := fun _ _ => rfl
  setDataAddress := fun _ _ => rfl

theorem fail_live (m : Machine) (f : Fault) : (m.live.fail f).live = (m.fail f).live := by
  simp only [Step.live, fail, live_live]

theorem finish_live (m : Machine) (event : Option Event) :
    (m.live.proceed .fetch event).live = (m.proceed .fetch event).live := by
  cases hinterrupted : m.interrupted <;> simp [Step.live, proceed, live, hinterrupted]

theorem send_live (hphase : m.phase ≠ .fetch) (address : Word) :
    ((m.live.setDataAddress address).proceed .access none).live =
      ((m.setDataAddress address).proceed .access none).live := by
  cases hinterrupted : m.interrupted <;>
    simp [Step.live, proceed, setDataAddress, live, hinterrupted, hphase]

theorem attempt_live {α : Type} {operation : Operation α} {onLive on : α → Machine → Step}
    (hrespects : operation.Respects live)
    (hnext : ∀ a n, (onLive a n.live).live = (on a n).live) :
    (m.live.attempt operation onLive).live = (m.attempt operation on).live := by
  unfold attempt
  rw [hrespects m]
  cases operation m with
  | ok a n => exact hnext a n
  | error f n => exact fail_live n f

theorem finishWith_live {operation : Operation Unit} (hrespects : operation.Respects live) :
    (m.live.finishWith operation).live = (m.finishWith operation).live :=
  attempt_live hrespects fun _ n => finish_live n none

theorem withOperand_live {onLive on : Word → Step} (hphase : m.phase ≠ .fetch)
    (hnext : ∀ w, (onLive w).live = (on w).live) :
    (m.live.withOperand onLive).live = (m.withOperand on).live := by
  unfold withOperand
  rw [instruction_live hphase]
  cases m.instruction.value with
  | none => exact fail_live m _
  | some w => exact hnext w

theorem saveStep_live (m : Machine) : m.live.saveStep.live = m.saveStep.live :=
  attempt_live (respects_save aside_live) fun _ n => finish_live n _

theorem inputStep_live (m : Machine) : m.live.inputStep.live = m.inputStep.live :=
  attempt_live (respects_accept aside_live m.pending) fun _ n =>
    finish_live { n with pending := none } _

theorem exitInterrupt_live (hphase : m.phase ≠ .fetch) :
    m.live.exitInterrupt.live = m.exitInterrupt.live := by
  have hlive : m.live.interrupted = m.interrupted := rfl
  unfold exitInterrupt
  rw [hlive, instruction_live hphase]
  cases hinterrupted : m.interrupted with
  | false => exact fail_live m _
  | true =>
    -- only while it is interrupted does the machine read what it saved, and then all is live
    have hsaved : m.live = m := by
      simp only [live, hphase, hinterrupted, if_true, if_false]
      rw [← hinterrupted]
    rw [hsaved]

theorem fetch_live (m : Machine) (hphase : m.phase = .fetch) :
    m.live.fetch.live = m.fetch.live := by
  have hinterruption : m.live.interruption? = m.interruption? := rfl
  have hcell : m.live.cellAt m.live.programCounter = m.cellAt m.programCounter := rfl
  unfold fetch
  rw [hinterruption, hcell]
  cases m.interruption? with
  | some vector => simp only [enterInterrupt, saveAccumulator, live, Step.live, hphase, if_true]
  | none =>
    cases m.cellAt m.programCounter with
    | error f => exact fail_live m f
    | ok c =>
      -- the fetched cell replaces whatever the register held
      cases hinterrupted : m.interrupted <;> simp [Step.live, proceed, live, hinterrupted]

theorem decode_live (hphase : m.phase ≠ .fetch) : m.live.decode.live = m.decode.live := by
  unfold decode
  rw [instruction_live hphase]
  cases m.instruction.opcode with
  | halt => exact congrArg (fun n => Step.mk n _ _) (live_live m)
  | noOperation => exact finish_live { m with programCounter := m.programCounter + 1 } none
  | jump =>
    apply withOperand_live hphase
    intro target
    exact finish_live { m with programCounter := target } none
  | jumpIfZero =>
    apply withOperand_live hphase
    intro target
    have hlive : m.live.zero = m.zero := rfl
    cases hzero : m.zero with
    | true =>
      simp only [hlive, hzero, if_true]
      rw [← hzero]
      exact finish_live { m with programCounter := target } none
    | false =>
      simp only [hlive, hzero]
      exact finish_live m none
  | ret => exact exitInterrupt_live hphase
  | load | save | setAddress | add | subtract | modulo =>
    exact withOperand_live hphase fun address => send_live hphase address
  | loadIndirect => exact send_live hphase m.accumulator
  | saveIndirect => exact saveStep_live m
  | push => exact withOperand_live hphase fun w => finish_live (m.load w) none
  | increment => exact finishWith_live (respects_compute aside_live .add (.immediate 1))
  | compare =>
    apply withOperand_live hphase
    intro w
    exact finishWith_live (respects_compute aside_live .compare (.immediate w))
  | input => exact inputStep_live m
  | output => exact finish_live m.emit _
  | string | number | buffer | vector =>
    unfold failOpcode
    rw [instruction_live hphase]
    exact fail_live m _

theorem access_live (hphase : m.phase ≠ .fetch) : m.live.access.live = m.access.live := by
  unfold access
  rw [instruction_live hphase]
  cases m.instruction.opcode with
  | load | loadIndirect => exact finishWith_live (respects_loadFrom aside_live .memory)
  | save => exact saveStep_live m
  | setAddress => exact finishWith_live (respects_followDataAddress aside_live)
  | add | subtract | modulo =>
    exact finishWith_live (respects_compute aside_live _ .memory)
  | _ =>
    unfold failOpcode
    rw [instruction_live hphase]
    exact fail_live m _

/-- A micro-step reads no register that is not live. -/
theorem step_live (m : Machine) : m.live.step.live = m.step.live := by
  have hlive : m.live.phase = m.phase := rfl
  unfold step
  rw [hlive]
  cases hphase : m.phase with
  | fetch => exact fetch_live m hphase
  | decode => exact decode_live (by rw [hphase]; decide)
  | access => exact access_live (by rw [hphase]; decide)

theorem perform_live (m : Machine) (a : Action) :
    (m.live.perform a).live = (m.perform a).live := by
  cases a with
  | step => exact step_live m
  | tick => exact congrArg (fun n : Machine => Step.mk n.advance _ _) (live_live m)
  | input symbol => exact congrArg (fun n : Machine => Step.mk (n.arrive symbol) _ _) (live_live m)

/-- Machines that agree in what is live give the same responses, and go on agreeing. -/
theorem session_of_live_eq {m n : Machine} (hlive : m.live = n.live) (actions : List Action) :
    m.responses actions = n.responses actions ∧
      (m.after actions).live = (n.after actions).live := by
  induction actions generalizing m n with
  | nil => exact ⟨rfl, hlive⟩
  | cons a actions ih =>
    have hstep : (m.perform a).live = (n.perform a).live := by
      rw [← perform_live m a, ← perform_live n a, hlive]
    obtain ⟨hmachine, hresult, hevent⟩ := Step.live_eq_iff.1 hstep
    obtain ⟨hresponses, hafter⟩ := ih hmachine
    refine ⟨?_, hafter⟩
    rw [responses, responses, hresult, hevent, hresponses]

end Machine

end Accumulator
