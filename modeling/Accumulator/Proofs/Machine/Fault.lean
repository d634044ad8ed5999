import Accumulator.Proofs.Machine.History
import Accumulator.Proofs.Machine.MicroStep

/-!
Faults. A step that fails has no effect: nothing of the machine changes and no
observer is told anything. What fails in a step is the control unit's look at an
instruction or an operation of the data path, and the control unit has done
nothing before either of them, nor the operation before its fault. So the
machine can be asked again, and goes on as soon as the reason is gone.
-/

namespace Accumulator.Machine

variable {m : Machine} {f : Fault}

/-- Nothing but the fault is left of a step that fails. -/
theorem step_of_fault (hfault : m.step.result = .error f) : m.Refuses f ∧ m.step = m.fail f := by
  have hstep := m.microStep
  generalize m.step = s at hfault hstep ⊢
  cases hstep with
  | fail hrefuses =>
    cases hfault
    exact ⟨hrefuses, rfl⟩
  | _ => cases hfault

/-- However often a failing step is tried, it fails in the same way. -/
theorem responses_of_fault (hstep : m.step = m.fail f) (n : Nat) :
    m.responses (List.replicate n .step) = List.replicate n ⟨.error f, none⟩ ∧
      m.after (List.replicate n .step) = m := by
  induction n with
  | zero => exact ⟨rfl, rfl⟩
  | succ n ih =>
    have hperform : m.perform .step = m.fail f := hstep
    simp only [List.replicate_succ, responses, after, List.foldl_cons, hperform]
    exact ⟨congrArg _ ih.1, ih.2⟩

/-- A machine that lacks input reads the next symbol that arrives. -/
theorem step_arrive (hphase : m.phase = .decode) (hinput : m.instruction.opcode = .input)
    (symbol : Word) :
    (m.arrive symbol).step =
      proceed { m.load symbol with pending := none } .fetch (some (.input symbol)) := by
  have hdecode : (m.arrive symbol).step = (m.arrive symbol).inputStep :=
    step_of_input hphase hinput
  rw [hdecode]
  rfl

/-- A failing step changes nothing and tells nothing. Tried again, it fails again with the same
fault and the machine stays as it is; but if it failed for want of input, the machine reads the
symbol that arrives and goes on. -/
theorem failing_step_changes_nothing (hfault : m.step.result = .error f) :
    m.step.machine = m ∧ m.step.event = none ∧
      (∀ n, m.responses (List.replicate n .step) = List.replicate n ⟨.error f, none⟩ ∧
        m.after (List.replicate n .step) = m) ∧
      (f = .endOfInput → ∀ symbol, (m.arrive symbol).step =
        { machine := { m with
            accumulator := symbol, zero := symbol == 0, pending := none, phase := .fetch }
          result := .ok .running
          event := some (.input symbol) }) := by
  obtain ⟨hrefuses, hstep⟩ := step_of_fault hfault
  refine ⟨congrArg Step.machine hstep, congrArg Step.event hstep, responses_of_fault hstep, ?_⟩
  rintro rfl symbol
  cases hrefuses with
  | input hphase hinput _ => exact step_arrive hphase hinput symbol

/-- A machine in its handler that has decoded `INPUT` when nothing is pending. -/
def starved : Machine where
  memory := #[⟨0, .input, none⟩]
  accumulator := 7
  savedAccumulator := 3
  instruction := ⟨0, .input, none⟩
  programCounter := 1
  phase := .decode
  interrupted := true
  tick := 12

/-- A machine that is to divide by a cell without a value. -/
def dividing : Machine where
  memory := #[⟨0, .modulo, some 1⟩, ⟨1, .number, none⟩]
  accumulator := 7
  dataAddress := 1
  instruction := ⟨0, .modulo, some 1⟩
  programCounter := 1
  phase := .access

theorem failing_step_changes_nothing_starved :
    starved.step.result = .error .endOfInput ∧ starved.after [.step, .step] = starved ∧
      (starved.arrive 65).step.machine = { starved with accumulator := 65, phase := .fetch } ∧
      dividing.step.result = .error .divisionByZero ∧ dividing.step.machine = dividing := by
  have hstarved : starved.step.result = .error .endOfInput := rfl
  have hdividing : dividing.step.result = .error .divisionByZero := rfl
  obtain ⟨-, -, hagain, hinput⟩ := failing_step_changes_nothing hstarved
  obtain ⟨hsame, -⟩ := failing_step_changes_nothing hdividing
  exact ⟨hstarved, (hagain 2).2, congrArg Step.machine (hinput rfl 65), hdividing, hsame⟩

end Accumulator.Machine
