import Accumulator.Proofs.Machine.MicroStep

/-!
What a micro-step learns of the surroundings of the machine, which are the
pending symbol and the place of the handler. Two steps ask for them: a fetch
looks whether an interrupt is due, and `INPUT` reads the symbol. A machine that
does neither now takes the same step in all surroundings and leaves them as
they are.
-/

namespace Accumulator

namespace Machine

/-- The machine in other surroundings. -/
def facing (m : Machine) (pending vector : Option Word) : Machine := { m with pending, vector }

/-- No interrupt is due and there is nothing that the next micro-step could read. -/
structure Secluded (m : Machine) : Prop where
  fetch : m.phase = .fetch → m.interruption? = none
  input : m.phase = .decode → m.instruction.opcode = .input → m.pending = none

end Machine

def Step.facing (s : Step) (pending vector : Option Word) : Step :=
  { s with machine := s.machine.facing pending vector }

namespace Machine

variable {m : Machine} {pending vector : Option Word}

/-- The data path does not know of the surroundings. -/
theorem aside_facing (pending vector : Option Word) : Aside (·.facing pending vector) where
  memory := fun _ => rfl
  accumulator := fun _ => rfl
  dataAddress := fun _ => rfl
  store := fun _ _ => rfl
  load := fun _ _ => rfl
  compare := fun _ _ => rfl
  setDataAddress := fun _ _ => rfl

theorem attempt_facing {α : Type} {operation : Operation α} {elsewhere here : α → Machine → Step}
    (hrespects : operation.Respects (·.facing pending vector))
    (hnext : ∀ a n, elsewhere a (n.facing pending vector) = (here a n).facing pending vector) :
    (m.facing pending vector).attempt operation elsewhere =
      (m.attempt operation here).facing pending vector := by
  unfold attempt
  rw [hrespects m]
  cases operation m with
  | ok a n => exact hnext a n
  | error f n => rfl

theorem finishWith_facing {operation : Operation Unit}
    (hrespects : operation.Respects (·.facing pending vector)) :
    (m.facing pending vector).finishWith operation =
      (m.finishWith operation).facing pending vector :=
  attempt_facing hrespects fun _ _ => rfl

theorem withOperand_facing {elsewhere here : Word → Step}
    (hnext : ∀ w, elsewhere w = (here w).facing pending vector) :
    (m.facing pending vector).withOperand elsewhere =
      (m.withOperand here).facing pending vector := by
  have hvalue : (m.facing pending vector).instruction.value = m.instruction.value := rfl
  unfold withOperand
  rw [hvalue]
  cases m.instruction.value with
  | none => rfl
  | some w => exact hnext w

theorem saveStep_facing (m : Machine) :
    (m.facing pending vector).saveStep = m.saveStep.facing pending vector :=
  attempt_facing (respects_save (aside_facing pending vector)) fun _ _ => rfl

theorem exitInterrupt_facing (m : Machine) :
    (m.facing pending vector).exitInterrupt = m.exitInterrupt.facing pending vector := by
  change (if m.interrupted = true then _ else _) = _
  unfold exitInterrupt
  split
  · rfl
  · rfl

theorem inputStep_facing (hpending : m.pending = none) :
    (m.facing none vector).inputStep = m.inputStep.facing none vector := by
  unfold inputStep
  rw [hpending]
  rfl

theorem fetch_facing (hquiet : m.interruption? = none)
    (hquiet' : (m.facing pending vector).interruption? = none) :
    (m.facing pending vector).fetch = m.fetch.facing pending vector := by
  have hcell : (m.facing pending vector).cellAt (m.facing pending vector).programCounter =
      m.cellAt m.programCounter := rfl
  unfold fetch
  rw [hquiet, hquiet', hcell]
  cases m.cellAt m.programCounter with
  | error f => rfl
  | ok c => rfl

theorem decode_facing
    (hinput : m.instruction.opcode = .input → m.pending = none ∧ pending = none) :
    (m.facing pending vector).decode = m.decode.facing pending vector := by
  have hopcode : (m.facing pending vector).instruction.opcode = m.instruction.opcode := rfl
  unfold decode
  rw [hopcode]
  cases hop : m.instruction.opcode with
  | halt | noOperation | loadIndirect | output => rfl
  | jump | load | save | setAddress | add | subtract | modulo | push =>
    apply withOperand_facing
    intro w
    rfl
  | jumpIfZero =>
    apply withOperand_facing
    intro target
    change (if m.zero = true then _ else _) = _
    split
    · rfl
    · rfl
  | ret => exact exitInterrupt_facing m
  | saveIndirect => exact saveStep_facing m
  | increment => exact finishWith_facing (respects_compute (aside_facing _ _) .add (.immediate 1))
  | compare =>
    apply withOperand_facing
    intro w
    exact finishWith_facing (respects_compute (aside_facing _ _) .compare (.immediate w))
  | input =>
    obtain ⟨hpending, rfl⟩ := hinput hop
    exact inputStep_facing hpending
  | string | number | buffer | vector => rfl

theorem access_facing (m : Machine) :
    (m.facing pending vector).access = m.access.facing pending vector := by
  have hopcode : (m.facing pending vector).instruction.opcode = m.instruction.opcode := rfl
  unfold access
  rw [hopcode]
  cases m.instruction.opcode with
  | save => exact saveStep_facing m
  | load | loadIndirect => exact finishWith_facing (respects_loadFrom (aside_facing _ _) .memory)
  | setAddress => exact finishWith_facing (respects_followDataAddress (aside_facing _ _))
  | add | subtract | modulo =>
    exact finishWith_facing (respects_compute (aside_facing _ _) _ .memory)
  | _ => rfl

/-- A machine that is secluded here and elsewhere takes the same step in both places. -/
theorem step_facing (hhere : m.Secluded) (helsewhere : (m.facing pending vector).Secluded) :
    (m.facing pending vector).step = m.step.facing pending vector := by
  have hphase : (m.facing pending vector).phase = m.phase := rfl
  unfold step
  rw [hphase]
  cases hm : m.phase with
  | fetch => exact fetch_facing (hhere.fetch hm) (helsewhere.fetch hm)
  | decode =>
    exact decode_facing fun hinput => ⟨hhere.input hm hinput, helsewhere.input hm hinput⟩
  | access => exact access_facing m

theorem secluded_of_pending_none (hpending : m.pending = none) : m.Secluded where
  fetch := by
    intro hphase
    simp [interruption?, hpending]
  input := fun _ _ => hpending

theorem secluded_facing_none (m : Machine) (vector : Option Word) :
    (m.facing none vector).Secluded :=
  secluded_of_pending_none rfl

/-- In the middle of an instruction that does not read, the surroundings do not matter. -/
theorem secluded_of_underWay (hphase : m.phase ≠ .fetch)
    (hinput : m.instruction.opcode ≠ .input) : m.Secluded where
  fetch := fun hfetch => absurd hfetch hphase
  input := fun _ hop => absurd hop hinput

/-- The step of a secluded machine leaves its surroundings as they are. -/
theorem Secluded.kept (h : m.Secluded) :
    m.step.machine.pending = m.pending ∧ m.step.machine.vector = m.vector := by
  have hsame : m.step = m.step.facing m.pending m.vector := step_facing h h
  rw [hsame]
  exact ⟨rfl, rfl⟩

/-- A symbol that arrives in the middle of an instruction that does not read could as well arrive
behind the next micro-step. -/
theorem step_arrive_of_underWay (hphase : m.phase ≠ .fetch)
    (hinput : m.instruction.opcode ≠ .input) (symbol : Word) :
    (m.arrive symbol).step = { m.step with machine := m.step.machine.arrive symbol } := by
  have hhere := secluded_of_underWay hphase hinput
  have harrived : (m.facing (some symbol) m.vector).Secluded :=
    secluded_of_underWay hphase hinput
  have hstep : (m.arrive symbol).step = m.step.facing (some symbol) m.vector :=
    step_facing hhere harrived
  rw [hstep, ← hhere.kept.2]
  rfl

end Machine

end Accumulator
