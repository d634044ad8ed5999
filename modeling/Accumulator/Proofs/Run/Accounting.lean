import Accumulator.Proofs.Run.Course

/-!
Where the ticks of a run go. A tick that goes on enters an interrupt, ends an
instruction or leaves one under way. An entry takes one tick, an instruction two
or, if it accesses memory, three; the phase tells how much of the instruction
under way is done. The tick that stops a run is one of decoding, is not counted
by the clock, and its instruction was counted when it was fetched.
-/

namespace Accumulator

def Event.isEntry : Event → Bool
  | .interruptEnter _ _ => true
  | _ => false

/-- How many instructions are under way. -/
def Phase.underWay : Phase → Nat
  | .fetch => 0
  | .decode | .access => 1

namespace Machine

/-- The step ends an instruction, a long one that accesses memory or a short one. -/
def completes (m : Machine) (long : Bool) : Bool :=
  m.phase != .fetch && m.step.machine.phase == .fetch &&
    m.instruction.opcode.accessesMemory == long

/-- How often the step enters an interrupt. -/
def entries (m : Machine) : Nat := m.step.event.toList.countP Event.isEntry

/-- What the tick of a step that goes on is spent on. -/
structure Spends (m : Machine) : Prop where
  ticks : m.phase.code + 1 = m.entries + 2 * (m.completes false).toNat +
    3 * (m.completes true).toNat + m.step.machine.phase.code
  once : m.entries + (m.completes false).toNat + (m.completes true).toNat +
    m.step.machine.phase.underWay = 1

variable {m : Machine} {reason : Stop}

theorem completes_of_fetch (hphase : m.phase = .fetch) (long : Bool) :
    m.completes long = false := by
  simp [completes, hphase]

theorem completes_of_underWay (hphase : m.step.machine.phase ≠ .fetch) (long : Bool) :
    m.completes long = false := by
  simp [completes, hphase]

theorem Executes.completes_eq (h : m.Executes) (hphase : m.step.machine.phase = .fetch)
    (long : Bool) : m.completes long = (m.instruction.opcode.accessesMemory == long) := by
  have hbegun : m.phase ≠ .fetch := by
    unfold Executes at h
    split at h <;> rw [h] <;> decide
  simp [completes, hbegun, hphase]

theorem spends_of_enter (hphase : m.phase = .fetch) (hsame : m.step.machine.phase = .fetch)
    (hentry : m.entries = 1) : m.Spends where
  ticks := by simp [hphase, hsame, hentry, completes_of_fetch hphase, Nat.add_comm]
  once := by simp [hsame, hentry, completes_of_fetch hphase, Phase.underWay]

theorem spends_of_underWay (hphase : m.step.machine.phase ≠ .fetch)
    (hnext : m.step.machine.phase.code = m.phase.code + 1) (hquiet : m.entries = 0) :
    m.Spends where
  ticks := by simp [hnext, hquiet, completes_of_underWay hphase]
  once := by
    simp only [hquiet, completes_of_underWay hphase]
    cases hunderWay : m.step.machine.phase with
    | fetch => exact absurd hunderWay hphase
    | decode | access => rfl

/-- The phase in which an instruction has its effect tells how many ticks it took before. -/
theorem Executes.spends (h : m.Executes) (hphase : m.step.machine.phase = .fetch)
    (hquiet : m.entries = 0) : m.Spends := by
  have hcompletes := h.completes_eq hphase
  unfold Executes at h
  cases haccess : m.instruction.opcode.accessesMemory with
  | false =>
    rw [haccess] at h hcompletes
    constructor
    · simp [h, hphase, hquiet, hcompletes, Phase.code]
    · simp [hphase, hquiet, hcompletes, Phase.underWay]
  | true =>
    rw [haccess] at h hcompletes
    constructor
    · simp [h, hphase, hquiet, hcompletes, Phase.code]
    · simp [hphase, hquiet, hcompletes, Phase.underWay]

theorem spends_of_running (hrunning : m.step.result = .ok .running) : m.Spends := by
  have hstep := m.microStep
  generalize hs : m.step = s at hstep hrunning
  have hphase : m.step.machine.phase = s.machine.phase := by rw [hs]
  have hentries : m.entries = s.event.toList.countP Event.isEntry := by rw [entries, hs]
  cases hstep with
  | fail => cases hrunning
  | halt => cases hrunning
  | enter hfetch => exact spends_of_enter hfetch (hphase.trans hfetch) hentries
  | fetch hfetch =>
    exact spends_of_underWay (hphase ▸ nofun) (by rw [hphase, hfetch]; rfl) hentries
  | address hdecode =>
    exact spends_of_underWay (hphase ▸ nofun) (by rw [hphase, hdecode]; rfl) hentries
  -- the others end their instruction
  | compute _ _ _ _ hexecutes => exact hexecutes.spends hphase hentries
  | store hexecutes => exact hexecutes.spends hphase hentries
  | input hdecode hinput =>
    exact (executes_of_decode hdecode (by rw [hinput]; rfl)).spends hphase hentries
  | output hdecode houtput =>
    exact (executes_of_decode hdecode (by rw [houtput]; rfl)).spends hphase hentries
  | exit hdecode hret =>
    exact (executes_of_decode hdecode (by rw [hret]; rfl)).spends hphase hentries

theorem stops_decoding (hstop : Ending.behind? m.step.result = some (.stopped reason)) :
    m.phase = .decode ∧ m.entries = 0 := by
  unfold entries
  have hstep := m.microStep
  generalize m.step = s at hstep hstop
  cases hstep with
  | fail hrefuses =>
    refine ⟨?_, rfl⟩
    cases hrefuses with
    | input hphase => exact hphase
    | _ => cases hstop
  | halt hphase => exact ⟨hphase, rfl⟩
  | _ => cases hstop

end Machine

namespace Run

/-- How often an observer was told that an interrupt is entered. -/
def entries (r : Run) : Nat := r.events.toList.countP Event.isEntry

/-- How many of the ticks ended an instruction, a long or a short one. -/
def completed (long : Bool) (ticks : List Run) : Nat :=
  ticks.countP fun r => r.prepare.machine.completes long

/-- The clock and the count of a run that got through the given ticks. -/
structure Counted (before : List Run) (r : Run) : Prop where
  ticks : r.machine.tick =
    r.entries + 2 * completed false before + 3 * completed true before + r.machine.phase.code
  instructions : r.instructions =
    r.entries + completed false before + completed true before + r.machine.phase.underWay

/-- The account of a report, given how often interrupts were entered and how many short and long
instructions were completed. -/
structure Accounted (limits : Limits) (entries short long : Nat) (report : Report) : Prop where
  bounded : report.ticks ≤ limits.ticks
  limit_iff : report.stop = .tickLimit ↔ report.ticks = limits.ticks
  stopped : report.stop = .halted ∨ report.stop = .endOfInput →
    report.ticks = entries + 2 * short + 3 * long + 1 ∧
      report.instructions = entries + short + long + 1
  limited : report.stop = .tickLimit → ∃ p ≤ 2,
    report.ticks = entries + 2 * short + 3 * long + p ∧
      report.instructions = entries + short + long + if 0 < p then 1 else 0

variable {limits : Limits} {start r : Run} {before : List Run} {reason : Stop}

theorem completed_concat (long : Bool) (before : List Run) (r : Run) :
    completed long (before ++ [r]) =
      completed long before + (r.prepare.machine.completes long).toNat := by
  unfold completed
  rw [List.countP_append, List.countP_singleton]
  cases r.prepare.machine.completes long <;> rfl

theorem stepped_instructions (r : Run) :
    r.stepped.instructions + r.machine.phase.underWay = r.instructions + 1 := by
  obtain ⟨pending, arrivals, hprepare⟩ := r.prepare_eq
  change r.prepare.instructions + _ = _
  rw [hprepare]
  cases r.machine.phase <;> rfl

theorem stepped_entries (r : Run) : r.stepped.entries = r.entries + r.prepare.machine.entries := by
  change (r.prepare.events ++ r.upcoming.event.toList).toList.countP Event.isEntry = _
  rw [Array.toList_appendList, List.countP_append, prepare_events]
  rfl

theorem Counted.tick (h : Counted before r) (hrunning : r.upcoming.result = .ok .running) :
    Counted (before ++ [r]) (r.passed limits) := by
  obtain ⟨hticks, honce⟩ := Machine.spends_of_running hrunning
  obtain ⟨trace, hpassed⟩ := r.passed_eq limits
  have htick := r.passed_tick limits
  have hentries : (r.passed limits).entries = r.stepped.entries := by rw [hpassed]; rfl
  have hphase : (r.passed limits).machine.phase = r.upcoming.machine.phase := by rw [hpassed]; rfl
  have hcount : (r.passed limits).instructions = r.stepped.instructions := by rw [hpassed]
  have hbegun := r.stepped_instructions
  rw [prepare_phase] at hticks
  change _ = _ + r.upcoming.machine.phase.code at hticks
  change _ + r.upcoming.machine.phase.underWay = 1 at honce
  constructor
  · have := h.ticks
    rw [htick, hentries, stepped_entries, completed_concat, completed_concat, hphase]
    omega
  · have := h.instructions
    rw [hcount, hentries, stepped_entries, completed_concat, completed_concat, hphase]
    omega

theorem Through.counted (h : Through limits start before r) (hstart : Counted [] start) :
    Counted before r := by
  induction h with
  | start => exact hstart
  | tick _ hrunning ih => exact ih.tick hrunning

theorem counted_start (image : Image) (arrivals : List Arrival) :
    Counted [] (Run.start image arrivals) :=
  ⟨rfl, rfl⟩

theorem Counted.stopped (h : Counted before r)
    (hstop : Ending.behind? r.upcoming.result = some (.stopped reason)) :
    r.stepped.machine.tick =
        r.stepped.entries + 2 * completed false before + 3 * completed true before + 1 ∧
      r.stepped.instructions =
        r.stepped.entries + completed false before + completed true before + 1 := by
  obtain ⟨hphase, hquiet⟩ := Machine.stops_decoding hstop
  rw [prepare_phase] at hphase
  have hticks := h.ticks
  have hinstructions := h.instructions
  have hbegun := r.stepped_instructions
  rw [hphase] at hticks hinstructions hbegun
  rw [stepped_tick, stepped_entries, hquiet]
  change _ = _ + 1 at hticks hinstructions
  change _ + 1 = _ at hbegun
  exact ⟨hticks, by omega⟩

theorem Counted.limited (h : Counted before r) : ∃ p ≤ 2,
    r.machine.tick = r.entries + 2 * completed false before + 3 * completed true before + p ∧
      r.instructions = r.entries + completed false before + completed true before +
        if 0 < p then 1 else 0 := by
  refine ⟨r.machine.phase.code, ?_, h.ticks, ?_⟩
  · cases r.machine.phase <;> decide
  · rw [h.instructions]
    cases r.machine.phase <;> rfl

/-- Every run ends, at its limit at the latest, and the account of its report is exact. -/
theorem cycles_accounted (image : Image) (arrivals : List Arrival) (limits : Limits) :
    let start := Run.start image arrivals
    let final := (start.complete limits).1
    (∀ c, Loops limits start c ↔ c = start.complete limits) ∧
      final.machine.tick ≤ limits.ticks ∧
      ∀ report, simulate image arrivals limits = .ok report →
        Accounted limits final.entries (completed false (start.course limits))
          (completed true (start.course limits)) report := by
  intro start final
  have hstart : start.machine.tick ≤ limits.ticks := limits.ticks.zero_le
  obtain ⟨last, hthrough, hlast⟩ := complete_cases hstart
  have hcounted := hthrough.counted (counted_start image arrivals)
  refine ⟨fun c => loops_iff.trans eq_comm, ?_⟩
  have hreport := simulate_eq image arrivals limits
  rcases hlast with ⟨htick, hcomplete⟩ | ⟨htick, ending, hending, hcomplete⟩
  · have hfinal : final = last := congrArg Prod.fst hcomplete
    rw [hcomplete] at hreport
    rw [hfinal, hreport]
    refine ⟨Nat.le_of_eq htick, ?_⟩
    rintro report ⟨⟩
    exact ⟨Nat.le_of_eq htick, ⟨fun _ => htick, fun _ => rfl⟩, nofun, fun _ => hcounted.limited⟩
  · have hfinal : final = last.stepped := congrArg Prod.fst hcomplete
    have hbelow : last.stepped.machine.tick < limits.ticks := by rwa [stepped_tick]
    rw [hcomplete] at hreport
    rw [hfinal, hreport]
    refine ⟨Nat.le_of_lt hbelow, ?_⟩
    cases ending with
    | failed f => nofun
    | stopped reason =>
      rintro report ⟨⟩
      have hlimit : reason ≠ .tickLimit := by
        rintro rfl
        exact Ending.behind?_ne_tickLimit _ hending
      exact ⟨Nat.le_of_lt hbelow,
        ⟨fun h => absurd h hlimit, fun h => absurd h (Nat.ne_of_lt hbelow)⟩,
        fun _ => hcounted.stopped hending, fun h => absurd h hlimit⟩

/-- A handler reads the symbol before the program loads a word and halts: an entry, `INPUT` and
`RET`, a `LOAD`, and the tick that fetches the `HALT`. -/
theorem cycles_accounted_interrupted :
    let image : Image := ⟨some 2, #[⟨0, .load, some 4⟩, ⟨1, .halt, none⟩, ⟨2, .input, none⟩,
      ⟨3, .ret, none⟩, ⟨4, .number, some 7⟩]⟩
    let arrivals : List Arrival := [⟨0, 65⟩]
    let limits : Limits := { ticks := 100, trace := 0 }
    let report : Report := ⟨"", 5, 9, .halted, #[]⟩
    simulate image arrivals limits = .ok report ∧ Accounted limits 1 2 1 report := by
  intro image arrivals limits report
  let start := Run.start image arrivals
  have hreport : simulate image arrivals limits = .ok report :=
    simulate_eq_ok_iff.2 (by decide +kernel)
  have hentries : (start.complete limits).1.entries = 1 := by decide +kernel
  have hshort : completed false (start.course limits) = 2 := by decide +kernel
  have hlong : completed true (start.course limits) = 1 := by decide +kernel
  have haccounted := (cycles_accounted image arrivals limits).2.2 report hreport
  refine ⟨hreport, ?_⟩
  rwa [hentries, hshort, hlong] at haccounted

end Run

end Accumulator
