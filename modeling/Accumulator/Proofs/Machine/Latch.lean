import Accumulator.Proofs.Machine.History
import Accumulator.Proofs.Machine.MicroStep

/-!
The instruction register. Outside the fetch phase it holds the cell that was
fetched last, the program counter stands behind that cell, and memory still has
it, since an instruction that overwrites its own cell ends with that. The access
phase is reached by instructions only that access memory.
-/

namespace Accumulator.Machine

/-- The machine fetches the cell from the address. -/
structure Fetches (m : Machine) (address : Word) (c : Cell) : Prop where
  phase : m.phase = .fetch
  programCounter : m.programCounter = address
  cell : m.memory[address.toNat]? = some c
  step : m.step = (m.fetched c).proceed .decode none

/-- The step goes on with the instruction in the register. -/
structure GoesOn (m : Machine) (s : Step) : Prop where
  phase : m.phase ≠ .fetch
  instruction : s.machine.instruction = m.instruction
  programCounter : s.machine.programCounter = m.programCounter
  memory : s.machine.memory = m.memory
  access : s.machine.phase = .access →
    m.phase = .access ∨ m.instruction.opcode.accessesMemory = true

/-- The instruction that was fetched from the address is in the register and in memory. -/
structure Latched (m : Machine) (address : Word) : Prop where
  cell : m.memory[address.toNat]? = some m.instruction
  programCounter : m.programCounter = address + 1
  access : m.phase = .access → m.instruction.opcode.accessesMemory = true

variable {m start : Machine} {s : Step} {actions : List Action} {address : Word} {c : Cell}

theorem goesOn_of_same (hphase : m.phase ≠ .fetch)
    (hinstruction : s.machine.instruction = m.instruction)
    (hcounter : s.machine.programCounter = m.programCounter)
    (hmemory : s.machine.memory = m.memory) (hsame : s.machine.phase = m.phase) : m.GoesOn s :=
  ⟨hphase, hinstruction, hcounter, hmemory, fun haccess => .inl (hsame.symm.trans haccess)⟩

/-- An action leads to the fetch phase or stays in it, or fetches a cell, or goes on with one. -/
theorem register_cases (m : Machine) (a : Action) :
    (m.perform a).machine.phase = .fetch ∨
      (a = .step ∧ ∃ c, m.Fetches m.programCounter c) ∨ m.GoesOn (m.perform a) := by
  -- a step that ends its instruction has nothing to show of the register
  by_cases hfetch : (m.perform a).machine.phase = .fetch
  · exact .inl hfetch
  refine .inr ?_
  cases a with
  | tick => exact .inr (goesOn_of_same hfetch rfl rfl rfl rfl)
  | input symbol => exact .inr (goesOn_of_same hfetch rfl rfl rfl rfl)
  | step =>
    have hstep : m.MicroStep (m.perform .step) := m.microStep
    generalize hperform : m.perform .step = s at hstep hfetch ⊢
    cases hstep with
    | fail => exact .inr (goesOn_of_same hfetch rfl rfl rfl rfl)
    | halt => exact .inr (goesOn_of_same hfetch rfl rfl rfl rfl)
    | enter hphase => exact absurd hphase hfetch
    | fetch hphase _ hcell => exact .inl ⟨rfl, _, hphase, rfl, hcell, hperform⟩
    | address hphase haccess =>
      have hdecode : m.phase ≠ .fetch := by rw [hphase]; decide
      exact .inr ⟨hdecode, rfl, rfl, rfl, fun _ => .inr haccess⟩
    | _ => exact absurd rfl hfetch

theorem Fetches.latched (h : m.Fetches address c) : m.step.machine.Latched address := by
  rw [h.step]
  refine ⟨h.cell, ?_, fun haccess => nomatch haccess⟩
  rw [← h.programCounter]
  rfl

theorem Latched.goOn (h : m.Latched address) (hgoes : m.GoesOn s) : s.machine.Latched address where
  cell := by rw [hgoes.memory, hgoes.instruction, h.cell]
  programCounter := by rw [hgoes.programCounter, h.programCounter]
  access := by
    intro haccess
    rw [hgoes.instruction]
    exact (hgoes.access haccess).elim h.access id

/-- The instruction in the register was fetched from the address, and nothing was fetched since. -/
def FetchedFrom (start : Machine) (actions : List Action) (address : Word) : Prop :=
  start.Since (fun n => ∃ c, n.Fetches address c) (fun n => n.phase ≠ .fetch) actions

/-- Whenever the machine is not about to fetch, its register holds a cell that it has fetched. -/
theorem exists_fetchedFrom (hstart : start.phase = .fetch) (actions : List Action)
    (hphase : (start.after actions).phase ≠ .fetch) :
    ∃ address, start.FetchedFrom actions address ∧ (start.after actions).Latched address := by
  induction actions using List.reverseRecOn with
  | nil => exact absurd hstart hphase
  | append_singleton actions a ih =>
    have hafter := after_concat start actions a
    rcases (start.after actions).register_cases a with hfetch | ⟨rfl, c, hfetches⟩ | hgoes
    · rw [hafter] at hphase
      exact absurd hfetch hphase
    · refine ⟨_, since_step ⟨c, hfetches⟩ hphase, ?_⟩
      rw [hafter]
      exact hfetches.latched
    · obtain ⟨address, hfetched, hlatched⟩ := ih hgoes.phase
      refine ⟨address, hfetched.concat hphase, ?_⟩
      rw [hafter]
      exact hlatched.goOn hgoes

end Accumulator.Machine
