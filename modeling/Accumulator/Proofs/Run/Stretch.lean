import Accumulator.Proofs.Machine.Instruction
import Accumulator.Proofs.Run.Comparison

/-!
Stretches of a run in which no symbol arrives. There a run does what the machine
of whole instructions does, with the clock going on by the ticks of each of
them. Stretches are put together with the arrivals between them, so a program
can be followed from its start to its end instruction by instruction.
-/

namespace Accumulator

namespace Machine

/-- The machine so many ticks later. -/
def later (m : Machine) (n : Nat) : Machine := { m with tick := m.tick + n }

end Machine

theorem Step.of_outcome {s : Step} {o : Outcome} (h : s.outcome = .ok o) :
    s.result = .ok o.status ∧ s.machine = o.machine ∧ s.event.toList = o.events := by
  unfold Step.outcome at h
  split at h
  next hresult =>
    cases h
    exact ⟨hresult, rfl, rfl⟩
  next => cases h

def Outcome.advance (o : Outcome) : Outcome := { o with machine := o.machine.advance }

namespace Machine

/-- Whole instructions and interrupts that lead from one state of the machine to another: how many,
and what is told meanwhile. The clock goes on by their ticks. -/
inductive Leads : Machine → Nat → List Event → Machine → Prop where
  | refl (m : Machine) : Leads m 0 [] m
  | instruct {m m' m'' : Machine} {n : Nat} {events others : List Event}
    (hfetch : m.phase = .fetch) (hinstruct : m.instruct = .ok { machine := m', events })
    (hrest : Leads (m'.later m.instructTicks) n others m'') :
    Leads m (n + 1) (events ++ others) m''

variable {m m' m'' : Machine} {c : Cell}

theorem leads_one {events : List Event} (hfetch : m.phase = .fetch)
    (hinstruct : m.instruct = .ok { machine := m', events })
    (hlater : m'.later m.instructTicks = m'') : m.Leads 1 events m'' := by
  subst hlater
  rw [← List.append_nil events]
  exact .instruct hfetch hinstruct (.refl _)

theorem Leads.trans {n k : Nat} {events others : List Event} (h : m.Leads n events m')
    (h' : m'.Leads k others m'') : m.Leads (n + k) (events ++ others) m'' := by
  induction h with
  | refl => rwa [Nat.zero_add, List.nil_append]
  | instruct hfetch hinstruct _ ih =>
    rw [List.append_assoc, Nat.add_right_comm]
    exact .instruct hfetch hinstruct (ih h')

/-- The effect of an instruction does not depend on the clock. -/
theorem effect_advance (c : Cell) (m : Machine) :
    c.effect m.advance = Outcome.advance <$> c.effect m := by
  have hheld (address : Word) : m.advance.held address = m.held address := rfl
  have hwritten (address w : Word) : m.advance.written address w = m.written address w := rfl
  cases hop : c.opcode with
  | halt | noOperation | increment | output | string | number | buffer | vector =>
    simp only [Cell.effect, hop]
    rfl
  | jump | jumpIfZero | push | compare =>
    simp only [Cell.effect, hop]
    cases c.operand with
    | error f => rfl
    | ok v => rfl
  | ret =>
    simp only [Cell.effect, hop]
    change (if m.interrupted then _ else _) = _
    split
    · rfl
    · rfl
  | input =>
    have hpending : m.advance.pending = m.pending := rfl
    simp only [Cell.effect, hop, hpending]
    cases m.pending with
    | none => rfl
    | some symbol => rfl
  | loadIndirect =>
    simp only [Cell.effect, hop, hheld]
    change (m.held m.accumulator >>= _) = _
    cases m.held m.accumulator with
    | error f => rfl
    | ok w => rfl
  | saveIndirect =>
    simp only [Cell.effect, hop, hwritten]
    change (m.written m.dataAddress m.accumulator >>= _) = _
    cases m.written m.dataAddress m.accumulator with
    | error f => rfl
    | ok memory => rfl
  | load | setAddress | add | subtract =>
    simp only [Cell.effect, hop, hheld]
    cases c.operand with
    | error f => rfl
    | ok v =>
      change (m.held v >>= _) = Outcome.advance <$> (m.held v >>= _)
      cases m.held v with
      | error f => rfl
      | ok w => rfl
  | save =>
    simp only [Cell.effect, hop, hwritten]
    cases c.operand with
    | error f => rfl
    | ok v =>
      change (m.written v m.accumulator >>= _) =
        Outcome.advance <$> (m.written v m.accumulator >>= _)
      cases m.written v m.accumulator with
      | error f => rfl
      | ok memory => rfl
  | modulo =>
    simp only [Cell.effect, hop, hheld]
    cases c.operand with
    | error f => rfl
    | ok v =>
      change (m.held v >>= _) = Outcome.advance <$> (m.held v >>= _)
      cases m.held v with
      | error f => rfl
      | ok w =>
        change (if w = 0 then _ else _) = Outcome.advance <$> (if w = 0 then _ else _)
        split
        · rfl
        · rfl

theorem tick_of_steps {n : Nat} {o : Outcome} (h : m.steps n = .ok o) :
    o.machine.tick = m.tick := by
  induction n generalizing m o with
  | zero =>
    cases h
    rfl
  | succ n ih =>
    obtain ⟨first, hfirst, hrest⟩ := Checked.bind_eq_ok_iff.1 h
    have htick : first.machine.tick = m.tick := by
      rw [← (Step.of_outcome hfirst).2.1, step_tick]
    cases hstatus : first.status with
    | halted =>
      rw [Outcome.andThen_of_halted hstatus] at hrest
      cases hrest
      exact htick
    | running =>
      rw [Outcome.andThen_of_running hstatus] at hrest
      obtain ⟨last, hlast, rfl⟩ := Checked.map_eq_ok_iff.1 hrest
      exact (ih hlast).trans htick

/-- Only the driver of a run moves the clock. -/
theorem tick_of_instruct {o : Outcome} (hfetch : m.phase = .fetch) (h : m.instruct = .ok o) :
    o.machine.tick = m.tick :=
  tick_of_steps ((steps_instructTicks hfetch).trans h)

theorem Leads.tick_le {n : Nat} {events : List Event} (h : m.Leads n events m') :
    m.tick ≤ m'.tick := by
  induction h with
  | refl => exact Nat.le_refl _
  | @instruct m m₁ m' n events others hfetch hinstruct _ ih =>
    have hlater : (m₁.later m.instructTicks).tick = m.tick + m.instructTicks :=
      congrArg (· + m.instructTicks) (tick_of_instruct hfetch hinstruct)
    rw [hlater] at ih
    exact Nat.le_trans (Nat.le_add_right _ _) ih

theorem instruct_of_cell (hquiet : m.interruption? = none)
    (hcell : m.cellAt m.programCounter = .ok c) :
    m.instruct = c.effect m ∧ m.instructTicks = c.opcode.ticks := by
  unfold instruct instructTicks
  rw [hquiet, hcell]
  exact ⟨rfl, rfl⟩

end Machine

namespace Run

open Machine

/-- The run gets from one state to another with so many instructions and the events, and what is to
come of it is the same from both. -/
structure ComesTo (limits : Limits) (r : Run) (n : Nat) (events : List Event) (r' : Run) :
    Prop where
  tick : r.machine.tick ≤ r'.machine.tick
  complete : r'.machine.tick < limits.ticks → r.complete limits = r'.complete limits
  instructions : r'.instructions = r.instructions + n
  events : r'.events.toList = r.events.toList ++ events

variable {limits : Limits} {r r' r'' : Run} {m m' : Machine} {c : Cell} {n k : Nat}
  {events others : List Event}

theorem ComesTo.refl (limits : Limits) (r : Run) : r.ComesTo limits 0 [] r where
  tick := Nat.le_refl _
  complete := fun _ => rfl
  instructions := rfl
  events := (List.append_nil _).symm

theorem ComesTo.trans (h : r.ComesTo limits n events r') (h' : r'.ComesTo limits k others r'') :
    r.ComesTo limits (n + k) (events ++ others) r'' where
  tick := Nat.le_trans h.tick h'.tick
  complete hlimit := by
    rw [h.complete (Nat.lt_of_le_of_lt h'.tick hlimit), h'.complete hlimit]
  instructions := by rw [h'.instructions, h.instructions, Nat.add_assoc]
  events := by rw [h'.events, h.events, List.append_assoc]

/-- The run whose next arrival has become pending. -/
def received (r : Run) (a : Arrival) (rest : List Arrival) : Run :=
  { r with machine := r.machine.arrive a.symbol, arrivals := rest }

/-- A symbol that is due arrives, and that counts as nothing if no other one is due already. -/
theorem comesTo_received (limits : Limits) {a : Arrival} {rest : List Arrival}
    (harrivals : r.arrivals = a :: rest) (hdue : a.tick ≤ r.machine.tick)
    (hquiet : ∀ b ∈ rest.head?, r.machine.tick < b.tick) :
    r.ComesTo limits 0 [] (r.received a rest) := by
  have hdeliver : r.deliver = r.received a rest := by
    rw [deliver, harrivals]
    exact if_pos hdue
  have hprepare : r.prepare = (r.received a rest).prepare := by
    have hagain : (r.received a rest).deliver = r.received a rest := deliver_of_quiet hquiet
    rw [prepare, hdeliver, prepare, hagain]
  exact ⟨Nat.le_refl _, fun hlimit => complete_of_prepare hprepare hlimit, rfl,
    (List.append_nil _).symm⟩

/-- What a tick does in which nothing arrives. -/
theorem stepped_of_quiet {o : Outcome} (hstep : r.machine.step.outcome = .ok o)
    (hquiet : ∀ a ∈ r.arrivals.head?, r.machine.tick < a.tick) :
    r.upcoming.result = .ok o.status ∧ r.stepped.machine = o.machine ∧
      r.stepped.instructions = r.instructions + (if r.machine.phase = .fetch then 1 else 0) ∧
        r.stepped.events.toList = r.events.toList ++ o.events := by
  obtain ⟨hresult, hmachine, hevents⟩ := Step.of_outcome hstep
  have hprepare : r.prepare = r.countInstruction := by rw [prepare, deliver_of_quiet hquiet]
  have hupcoming : r.upcoming = r.machine.step := by
    rw [upcoming, hprepare]
    unfold countInstruction
    split <;> rfl
  refine ⟨?_, ?_, ?_, ?_⟩
  · rw [hupcoming, hresult]
  · change r.upcoming.machine = _
    rw [hupcoming, hmachine]
  · change r.prepare.instructions = _
    rw [hprepare]
    unfold countInstruction
    split <;> rfl
  · change (r.prepare.events ++ r.upcoming.event.toList).toList = _
    rw [prepare_events, hupcoming, hevents]
    exact Array.toList_appendList

theorem exists_comesTo_of_step (limits : Limits)
    (hstep : r.machine.step.outcome = .ok { machine := m, events })
    (hquiet : ∀ a ∈ r.arrivals.head?, r.machine.tick < a.tick) :
    ∃ r', r.ComesTo limits (if r.machine.phase = .fetch then 1 else 0) events r' ∧
      r'.machine = m.advance ∧ r'.arrivals = r.arrivals := by
  obtain ⟨hrunning, hmachine, hinstructions, hevents⟩ := stepped_of_quiet hstep hquiet
  obtain ⟨trace, hpassed⟩ := r.passed_eq limits
  refine ⟨r.passed limits, ⟨?_, ?_, ?_, ?_⟩, ?_, ?_⟩
  · rw [passed_tick]
    exact Nat.le_succ _
  · intro hlimit
    rw [passed_tick] at hlimit
    exact complete_of_running (Nat.lt_of_succ_lt hlimit) hrunning
  · rw [hpassed]
    exact hinstructions
  · rw [hpassed]
    exact hevents
  · rw [passed_machine, hmachine]
  · rw [passed_arrivals, deliver_of_quiet hquiet]

/-- The tick that fetches an instruction. -/
theorem exists_comesTo_of_fetch (limits : Limits) (hfetch : r.machine.phase = .fetch)
    (hinterruption : r.machine.interruption? = none)
    (hcell : r.machine.cellAt r.machine.programCounter = .ok c)
    (hquiet : ∀ a ∈ r.arrivals.head?, r.machine.tick < a.tick) :
    ∃ r', r.ComesTo limits 1 [] r' ∧ r'.machine = r.machine.advance.latched c ∧
      r'.arrivals = r.arrivals := by
  have hstep : r.machine.step.outcome = .ok { machine := r.machine.latched c } := by
    rw [step_of_fetch hfetch hinterruption hcell]
    rfl
  obtain ⟨r', hcomes, hmachine, harrivals⟩ := exists_comesTo_of_step limits hstep hquiet
  rw [if_pos hfetch] at hcomes
  exact ⟨r', hcomes, hmachine, harrivals⟩

/-- The tick of decoding, which is the last of an instruction without an access phase. -/
theorem exists_comesTo_of_decode (limits : Limits) (hmachine : r.machine = m.latched c)
    (hfetch : m.phase = .fetch)
    (haccess : c.opcode.accessesMemory = false)
    (heffect : c.effect m = .ok { machine := m', events })
    (hquiet : ∀ a ∈ r.arrivals.head?, r.machine.tick < a.tick) :
    ∃ r', r.ComesTo limits 0 events r' ∧ r'.machine = m'.advance ∧ r'.arrivals = r.arrivals := by
  have hstep : r.machine.step.outcome = .ok { machine := m', events } := by
    rw [hmachine, outcome_decode hfetch haccess, heffect]
  obtain ⟨r', hcomes, hmachine', harrivals⟩ :=
    exists_comesTo_of_step limits hstep hquiet
  rw [hmachine] at hcomes
  exact ⟨r', hcomes, hmachine', harrivals⟩

/-- The ticks of decoding and of the access. -/
theorem exists_comesTo_of_access (limits : Limits) (hmachine : r.machine = m.latched c)
    (hfetch : m.phase = .fetch)
    (haccess : c.opcode.accessesMemory = true)
    (heffect : c.effect m.advance = .ok { machine := m', events })
    (hquiet : ∀ a ∈ r.arrivals.head?, r.machine.tick + 1 < a.tick) :
    ∃ r', r.ComesTo limits 0 events r' ∧ r'.machine = m'.advance ∧ r'.arrivals = r.arrivals := by
  have hnext : m.advance.phase = .fetch := hfetch
  rw [effect_eq_access hnext haccess] at heffect
  obtain ⟨address, haddress, hlast⟩ := Checked.bind_eq_ok_iff.1 heffect
  have hdecode : r.machine.step.outcome = .ok { machine := m.addressed c address } := by
    have hsame : c.address m = .ok address := haddress
    rw [hmachine, step_latched haccess, hsame]
    rfl
  obtain ⟨r₁, hfirst, hmachine₁, harrivals₁⟩ :=
    exists_comesTo_of_step limits hdecode fun a ha => Nat.lt_of_succ_lt (hquiet a ha)
  have hstep : r₁.machine.step.outcome = .ok { machine := m', events } := by
    rw [hmachine₁]
    exact hlast
  have htick : r₁.machine.tick = r.machine.tick + 1 := by rw [hmachine₁, hmachine]; rfl
  rw [← harrivals₁, ← htick] at hquiet
  obtain ⟨r', hsecond, hmachine', harrivals⟩ :=
    exists_comesTo_of_step limits hstep hquiet
  rw [hmachine] at hfirst
  rw [hmachine₁] at hsecond
  exact ⟨r', hfirst.trans hsecond, hmachine', harrivals.trans harrivals₁⟩

/-- A whole instruction or the entry of an interrupt, with no arrival before its end. -/
theorem exists_comesTo_of_instruct (limits : Limits) (hfetch : r.machine.phase = .fetch)
    (hinstruct : r.machine.instruct = .ok { machine := m, events })
    (hquiet : ∀ a ∈ r.arrivals.head?, r.machine.tick + r.machine.instructTicks ≤ a.tick) :
    ∃ r', r.ComesTo limits 1 events r' ∧ r'.machine = m.later r.machine.instructTicks ∧
      r'.arrivals = r.arrivals := by
  cases hinterruption : r.machine.interruption? with
  | some vector =>
    have hticks : r.machine.instructTicks = 1 := by rw [instructTicks, hinterruption]
    rw [hticks] at hquiet ⊢
    have hstep : r.machine.step.outcome = .ok { machine := m, events } := by
      rw [← steps_one, ← hticks, steps_instructTicks hfetch, hinstruct]
    obtain ⟨r', hcomes, hmachine, harrivals⟩ :=
      exists_comesTo_of_step limits hstep hquiet
    rw [if_pos hfetch] at hcomes
    exact ⟨r', hcomes, hmachine, harrivals⟩
  | none =>
    rw [instruct, hinterruption] at hinstruct
    obtain ⟨c, hcell, heffect⟩ := Checked.bind_eq_ok_iff.1 hinstruct
    rw [(instruct_of_cell hinterruption hcell).2] at hquiet ⊢
    have hadvanced : c.effect r.machine.advance = .ok { machine := m.advance, events } := by
      rw [effect_advance, heffect]
      rfl
    have hphase : r.machine.advance.phase = .fetch := hfetch
    cases haccess : c.opcode.accessesMemory with
    | false =>
      have htwo : c.opcode.ticks = 2 := by rw [Opcode.ticks, haccess]; rfl
      rw [htwo] at hquiet ⊢
      obtain ⟨r₁, hfirst, hmachine₁, harrivals₁⟩ := exists_comesTo_of_fetch limits
        hfetch hinterruption hcell fun a ha => Nat.lt_of_succ_lt (hquiet a ha)
      obtain ⟨r', hsecond, hmachine', harrivals⟩ := exists_comesTo_of_decode limits
        hmachine₁ hphase haccess hadvanced (by rw [harrivals₁, hmachine₁]; exact hquiet)
      exact ⟨r', hfirst.trans hsecond, hmachine', harrivals.trans harrivals₁⟩
    | true =>
      have hthree : c.opcode.ticks = 3 := by rw [Opcode.ticks, haccess]; rfl
      have hagain : c.effect r.machine.advance.advance =
          .ok { machine := m.advance.advance, events } := by
        rw [effect_advance, hadvanced]
        rfl
      rw [hthree] at hquiet ⊢
      obtain ⟨r₁, hfirst, hmachine₁, harrivals₁⟩ := exists_comesTo_of_fetch limits
        hfetch hinterruption hcell fun a ha => Nat.lt_of_lt_of_le (by omega) (hquiet a ha)
      obtain ⟨r', hsecond, hmachine', harrivals⟩ := exists_comesTo_of_access limits
        hmachine₁ hphase haccess hagain (by rw [harrivals₁, hmachine₁]; exact hquiet)
      exact ⟨r', hfirst.trans hsecond, hmachine', harrivals.trans harrivals₁⟩

/-- A symbol that arrives while a short instruction is decoded that does not read it. -/
theorem exists_comesTo_of_arrival (limits : Limits) {a : Arrival} {rest : List Arrival}
    (hfetch : r.machine.phase = .fetch) (hinterruption : r.machine.interruption? = none)
    (hcell : r.machine.cellAt r.machine.programCounter = .ok c)
    (haccess : c.opcode.accessesMemory = false) (hinput : c.opcode ≠ .input)
    (heffect : c.effect r.machine = .ok { machine := m, events })
    (harrivals : r.arrivals = a :: rest) (hdue : a.tick = r.machine.tick + 1)
    (hquiet : ∀ b ∈ rest.head?, a.tick < b.tick) :
    ∃ r', r.ComesTo limits 1 events r' ∧ r'.machine = (m.later 2).arrive a.symbol ∧
      r'.arrivals = rest := by
  obtain ⟨r₁, hfirst, hmachine₁, harrivals₁⟩ := exists_comesTo_of_fetch limits hfetch
    hinterruption hcell (by simp [harrivals, hdue])
  have htick₁ : r₁.machine.tick = a.tick := by rw [hmachine₁, hdue]; rfl
  have hsecond := comesTo_received limits (harrivals₁.trans harrivals) (Nat.le_of_eq htick₁.symm)
    (htick₁ ▸ hquiet)
  have hstep : (r₁.received a rest).machine.step.outcome =
      .ok { machine := m.advance.arrive a.symbol, events } := by
    have hphase : r.machine.advance.phase = .fetch := hfetch
    have hunderWay : (r.machine.advance.latched c).phase ≠ .fetch := Phase.noConfusion
    have hdecode : (r.machine.advance.latched c).step.outcome =
        .ok { machine := m.advance, events } := by
      rw [outcome_decode hphase haccess, effect_advance, heffect]
      rfl
    obtain ⟨hresult, hmachine, hevents⟩ := Step.of_outcome hdecode
    change (r₁.machine.arrive a.symbol).step.outcome = _
    rw [hmachine₁, step_arrive_of_underWay hunderWay hinput, Step.outcome]
    simp only [hresult, hmachine, hevents]
  obtain ⟨r', hthird, hmachine', harrivals'⟩ := exists_comesTo_of_step limits hstep
    (htick₁ ▸ hquiet)
  have hphase : (r₁.received a rest).machine.phase ≠ .fetch := by
    change r₁.machine.phase ≠ .fetch
    rw [hmachine₁]
    exact Phase.noConfusion
  rw [if_neg hphase] at hthird
  exact ⟨r', (hfirst.trans hsecond).trans hthird, hmachine', harrivals'⟩

/-- `HALT` ends a run in the tick that decodes it. -/
theorem exists_complete_of_halt (hfetch : r.machine.phase = .fetch)
    (hinterruption : r.machine.interruption? = none)
    (hcell : r.machine.cellAt r.machine.programCounter = .ok c) (hhalt : c.opcode = .halt)
    (hquiet : ∀ a ∈ r.arrivals.head?, r.machine.tick + 1 < a.tick)
    (hlimit : r.machine.tick + 1 < limits.ticks) :
    ∃ last, r.complete limits = (last, .stopped .halted) ∧
      last.machine = r.machine.advance.latched c ∧ last.instructions = r.instructions + 1 ∧
        last.events.toList = r.events.toList ++ [.halt c.index] := by
  obtain ⟨r', hfirst, hmachine, harrivals⟩ := exists_comesTo_of_fetch limits hfetch
    hinterruption hcell fun a ha => Nat.lt_of_succ_lt (hquiet a ha)
  have htick : r'.machine.tick = r.machine.tick + 1 := by rw [hmachine]; rfl
  rw [← harrivals, ← htick] at hquiet
  rw [← htick] at hlimit
  have hstep : r'.machine.step.outcome = .ok {
      machine := r.machine.advance.latched c
      status := .halted
      events := [.halt c.index] } := by
    have hphase : r.machine.advance.phase = .fetch := hfetch
    rw [hmachine, outcome_decode hphase (by rw [hhalt]; rfl)]
    simp only [Cell.effect, hhalt]
    rfl
  obtain ⟨hresult, hlast, hinstructions, hevents⟩ := stepped_of_quiet hstep hquiet
  have hending : Ending.behind? r'.upcoming.result = some (.stopped .halted) := by
    rw [hresult]
    rfl
  refine ⟨r'.stepped, ?_, hlast, ?_, ?_⟩
  · rw [hfirst.complete hlimit, complete_of_stop hlimit hending]
  · rw [hinstructions, hfirst.instructions, hmachine]
    rfl
  · rw [hevents, hfirst.events, List.append_nil]

/-- While nothing arrives, a run does what whole instructions do. -/
theorem exists_comesTo_of_leads (limits : Limits) (h : m.Leads n events m')
    (hmachine : r.machine = m)
    (hquiet : ∀ a ∈ r.arrivals.head?, m'.tick ≤ a.tick) :
    ∃ r', r.ComesTo limits n events r' ∧ r'.machine = m' ∧ r'.arrivals = r.arrivals := by
  induction h generalizing r with
  | refl m => exact ⟨r, .refl limits r, hmachine, rfl⟩
  | @instruct m m₁ m' n events others hfetch hinstruct hrest ih =>
    subst hmachine
    have hpassed : r.machine.tick + r.machine.instructTicks ≤ m'.tick := by
      rw [← tick_of_instruct hfetch hinstruct]
      exact hrest.tick_le
    obtain ⟨r₁, hfirst, hmachine₁, harrivals₁⟩ := exists_comesTo_of_instruct limits
      hfetch hinstruct fun a ha => Nat.le_trans hpassed (hquiet a ha)
    rw [← harrivals₁] at hquiet
    obtain ⟨r', hothers, hmachine', harrivals⟩ := ih hmachine₁ hquiet
    refine ⟨r', ?_, hmachine', harrivals.trans harrivals₁⟩
    rw [Nat.add_comm]
    exact hfirst.trans hothers

end Run

end Accumulator
