import Accumulator.Proofs.Machine.Latch
import Accumulator.Proofs.Machine.Replay
import Accumulator.Proofs.Run.Schedule

/-!
Input that a run does not look at. A symbol that arrives in the middle of an
instruction is not looked at before that instruction ends, unless it is an
`INPUT`. A program without `INPUT` and without a handler never looks, and it
cannot come by an `INPUT`, since stores leave opcodes alone. Where nothing
arrives, the place of the handler is not looked at either.
-/

namespace Accumulator

namespace Machine

/-- The machine has no handler, no `INPUT` in memory, and none under way. -/
structure Deaf (m : Machine) : Prop where
  vector : m.vector = none
  memory : ∀ c ∈ m.memory, c.opcode ≠ .input
  instruction : m.phase ≠ .fetch → m.instruction.opcode ≠ .input

variable {m : Machine}

theorem Deaf.secluded (h : m.Deaf) : m.Secluded where
  fetch := by
    intro _
    simp [interruption?, h.vector]
  input := by
    intro hphase hinput
    have hfetch : m.phase ≠ .fetch := by rw [hphase]; decide
    exact absurd hinput (h.instruction hfetch)

/-- Nothing that happens to a deaf machine makes it look at its input. -/
theorem Deaf.perform (h : m.Deaf) (a : Action) : (m.perform a).machine.Deaf where
  vector := by
    cases a with
    | step => exact h.secluded.kept.2.trans h.vector
    | tick | input => exact h.vector
  memory := by
    have hoverwrites : Overwrites (m.events [a]) m.memory (m.perform a).machine.memory :=
      overwrites_after m [a]
    intro d hd
    obtain ⟨i, hi⟩ := Array.mem_iff_getElem?.1 hd
    obtain ⟨c, hc, -, hopcode, -⟩ := hoverwrites.cell i d hi
    rw [hopcode]
    exact h.memory c (Array.mem_of_getElem? hc)
  instruction := by
    intro hphase
    rcases m.register_cases a with hfetch | ⟨rfl, c, hfetches⟩ | hgoes
    · exact absurd hfetch hphase
    · have hc : (m.perform .step).machine.instruction = c :=
        congrArg (fun s => s.machine.instruction) hfetches.step
      rw [hc]
      exact h.memory c (Array.mem_of_getElem? hfetches.cell)
    · rw [hgoes.instruction]
      exact h.instruction hgoes.phase

end Machine

namespace Run

open Machine

variable {limits : Limits} {r r' start : Run} {before : List Run}

section Postponed

/-- The run that a symbol has reached behind which no other arrives. -/
def reached (r : Run) (s : Word) : Run := { r with machine := r.machine.arrive s, arrivals := [] }

theorem deliver_of_due {s : Word} {t : Nat} (ht : t ≤ r.machine.tick) :
    (r.awaiting [⟨t, s⟩]).deliver = r.reached s := by
  simp only [deliver, awaiting, ht, if_true]
  rfl

/-- A run in which nothing arrives gets to the same place with arrivals that are not due yet. -/
theorem Through.awaiting {arrivals : List Arrival} (h : Through limits start before r)
    (hnone : start.arrivals = []) (hlate : ∀ a ∈ arrivals, r.machine.tick ≤ a.tick) :
    r.arrivals = [] ∧
      Through limits (start.awaiting arrivals) (before.map (·.awaiting arrivals))
        (r.awaiting arrivals) := by
  induction h with
  | start => exact ⟨hnone, .start⟩
  | @tick before r _ hrunning ih =>
    have hlater : ∀ a ∈ arrivals, r.machine.tick < a.tick := by
      intro a ha
      have := hlate a ha
      rwa [passed_tick] at this
    obtain ⟨harrivals, hthrough⟩ := ih fun a ha => Nat.le_of_lt (hlater a ha)
    have hr := deliver_of_nil harrivals
    have hdeliver : (r.awaiting arrivals).deliver = r.deliver.awaiting arrivals := by
      rw [deliver_of_late hlater, hr]
    obtain ⟨hupcoming, -, hpassed⟩ := tick_of_awaiting limits hdeliver
    refine ⟨?_, ?_⟩
    · rw [passed_arrivals, hr, harrivals]
    · rw [List.map_append, List.map_singleton, ← hpassed]
      exact .tick hthrough (hupcoming ▸ hrunning)

/-- In the middle of an instruction that does not read, a tick does the same before and behind the
arrival of a symbol. -/
theorem tick_of_reached (limits : Limits) (s : Word) (harrivals : r.arrivals = [])
    (hphase : r.machine.phase ≠ .fetch) (hinput : r.machine.instruction.opcode ≠ .input) :
    (r.reached s).upcoming.result = r.upcoming.result ∧
      (r.reached s).stepped = r.stepped.reached s ∧
        (r.reached s).passed limits = (r.passed limits).reached s := by
  have hprepare : r.prepare = r := by
    rw [prepare, deliver_of_nil harrivals]
    exact if_neg hphase
  have hreached : (r.reached s).prepare = r.reached s := if_neg hphase
  have hupcoming : (r.reached s).upcoming =
      { r.upcoming with machine := r.upcoming.machine.arrive s } := by
    rw [upcoming, upcoming, hprepare, hreached]
    exact step_arrive_of_underWay hphase hinput s
  have hstepped : (r.reached s).stepped = r.stepped.reached s := by
    rw [stepped, stepped, hprepare, hreached, hupcoming]
    rfl
  have hrecord (r : Run) : (r.reached s).record limits = (r.record limits).reached s := by
    by_cases htick : r.machine.tick < limits.trace
    · simp only [record, reached, arrive, htick, if_true]
      rfl
    · simp only [record, reached, arrive, htick, if_false]
  refine ⟨by rw [hupcoming], hstepped, ?_⟩
  rw [passed, hstepped, hrecord]
  rfl

/-- A symbol that has arrived and one that arrives in this tick make no difference. -/
theorem sameEnd_reached (limits : Limits) (r : Run) (s : Word) {t : Nat}
    (ht : r.machine.tick = t) : SameEnd limits (r.reached s) (r.awaiting [⟨t, s⟩]) := by
  by_cases hbelow : r.machine.tick < limits.ticks
  · refine sameEnd_of_complete_eq (complete_of_prepare ?_ hbelow)
    rw [prepare, prepare, deliver_of_due (Nat.le_of_eq ht.symm)]
    rfl
  · have hlimit := Nat.le_of_not_lt hbelow
    have hreached : (r.reached s).complete limits = (r.reached s, .stopped .tickLimit) :=
      complete_of_limit hlimit
    have hawaiting : (r.awaiting [⟨t, s⟩]).complete limits =
        (r.awaiting [⟨t, s⟩], .stopped .tickLimit) := complete_of_limit hlimit
    unfold SameEnd
    rw [hreached, hawaiting]
    exact ⟨rfl, rfl⟩

/-- A symbol that arrives in the middle of an instruction that does not read could as well arrive
one tick later. -/
theorem sameEnd_postponed (limits : Limits) (s : Word) (harrivals : r.arrivals = [])
    (hphase : r.machine.phase ≠ .fetch) (hinput : r.machine.instruction.opcode ≠ .input)
    (hbelow : r.machine.tick < limits.ticks) :
    SameEnd limits (r.awaiting [⟨r.machine.tick, s⟩]) (r.awaiting [⟨r.machine.tick + 1, s⟩]) := by
  have hlate : ∀ a ∈ [(⟨r.machine.tick + 1, s⟩ : Arrival)], r.machine.tick < a.tick := by
    intro a ha
    rw [List.mem_singleton.1 ha]
    exact Nat.lt_succ_self _
  have hdeliver : (r.awaiting [⟨r.machine.tick + 1, s⟩]).deliver =
      r.deliver.awaiting [⟨r.machine.tick + 1, s⟩] := by
    rw [deliver_of_nil harrivals]
    exact deliver_of_late hlate
  obtain ⟨hresult, hstepped, hpassed⟩ := tick_of_reached limits s harrivals hphase hinput
  obtain ⟨hupcoming', hstepped', hpassed'⟩ := tick_of_awaiting limits hdeliver
  refine (sameEnd_reached limits r s rfl).symm.trans (.tick hbelow hbelow ?_ ?_ ?_)
  · rw [hresult, hupcoming']
  · rw [hstepped, hstepped']
    rfl
  · intro _
    rw [hpassed, hpassed']
    exact sameEnd_reached limits _ s (passed_tick limits r)

/-- A symbol that arrives in the middle of an instruction waits for its end, unless that is an
`INPUT`: it could as well arrive behind the micro-step that is taken then. -/
theorem arrival_waits_for_instruction :
    (∀ (m : Machine) (s : Word), m.phase ≠ .fetch → m.instruction.opcode ≠ .input →
      (m.arrive s).step = { m.step with machine := m.step.machine.arrive s }) ∧
    ∀ (image : Image) (limits : Limits) (s : Word), ∀ r ∈ (Run.start image []).begun limits,
      r.machine.phase ≠ .fetch → r.machine.instruction.opcode ≠ .input →
        simulate image [⟨r.machine.tick, s⟩] limits =
          simulate image [⟨r.machine.tick + 1, s⟩] limits := by
  refine ⟨fun m s hphase hinput => step_arrive_of_underWay hphase hinput s, ?_⟩
  intro image limits s r hr hphase hinput
  obtain ⟨⟨before, hthrough⟩, htick⟩ := Through.of_mem_begunFrom _ .start hr
  have hbelow : r.machine.tick < limits.ticks := by
    change r.machine.tick < 0 + (limits.ticks - 0) at htick
    omega
  have hthere {t : Nat} (ht : r.machine.tick ≤ t) : r.arrivals = [] ∧
      SameEnd limits (Run.start image [⟨t, s⟩]) (r.awaiting [⟨t, s⟩]) := by
    have hlate : ∀ a ∈ [(⟨t, s⟩ : Arrival)], r.machine.tick ≤ a.tick := by
      intro a ha
      rwa [List.mem_singleton.1 ha]
    obtain ⟨harrivals, hawaiting⟩ := hthrough.awaiting rfl hlate
    exact ⟨harrivals, sameEnd_of_complete_eq (hawaiting.complete_eq (Nat.le_of_lt hbelow))⟩
  obtain ⟨harrivals, hearly⟩ := hthere (Nat.le_refl _)
  obtain ⟨-, hlate⟩ := hthere (Nat.le_succ _)
  have hpostponed := sameEnd_postponed limits s harrivals hphase hinput hbelow
  exact (hearly.trans (hpostponed.trans hlate.symm)).simulate_eq

/-- A handler reads the symbol behind the `LOAD` that is decoded when it comes. -/
theorem arrival_waits_for_instruction_load :
    let image : Image := ⟨some 2, #[⟨0, .load, some 4⟩, ⟨1, .halt, none⟩, ⟨2, .input, none⟩,
      ⟨3, .ret, none⟩, ⟨4, .number, some 7⟩]⟩
    let limits : Limits := { ticks := 100, trace := 9 }
    (∃ r ∈ (Run.start image []).begun limits, r.machine.tick = 1 ∧ r.machine.phase = .decode ∧
      r.machine.instruction.opcode = .load ∧
      (r.machine.arrive 65).step =
        { r.machine.step with machine := r.machine.step.machine.arrive 65 }) ∧
      simulate image [⟨1, 65⟩] limits = simulate image [⟨2, 65⟩] limits := by
  intro image limits
  let r := (Run.start image []).passed limits
  have hfetch : (Run.start image []).upcoming.result = .ok .running := by decide +kernel
  have hr : r ∈ (Run.start image []).begun limits := by
    change r ∈ begunFrom limits (99 + 1) (Run.start image [])
    rw [begunFrom_of_running hfetch]
    exact List.mem_cons_of_mem _ List.mem_cons_self
  have hphase : r.machine.phase = .decode := by decide +kernel
  have hopcode : r.machine.instruction.opcode = .load := by decide +kernel
  have hunderWay : r.machine.phase ≠ .fetch := by rw [hphase]; decide
  have hinput : r.machine.instruction.opcode ≠ .input := by rw [hopcode]; decide
  obtain ⟨hstep, hsame⟩ := arrival_waits_for_instruction
  exact ⟨⟨r, hr, rfl, hphase, hopcode, hstep r.machine 65 hunderWay hinput⟩,
    hsame image limits 65 r hr hunderWay hinput⟩

end Postponed

section Unread

/-- Nothing is pending in the run, and nothing arrives. -/
structure Idle (r : Run) : Prop where
  pending : r.machine.pending = none
  arrivals : r.arrivals = []

theorem deaf_prepare (h : r.machine.Deaf) : r.prepare.machine.Deaf := by
  obtain ⟨pending, arrivals, hprepare⟩ := r.prepare_eq
  rw [hprepare]
  exact ⟨h.vector, h.memory, h.instruction⟩

theorem deaf_passed (h : r.machine.Deaf) : (r.passed limits).machine.Deaf := by
  rw [passed_machine]
  exact ((deaf_prepare h).perform .step).perform .tick

theorem Idle.prepare_machine (h : r.Idle) : r.prepare.machine = r.machine := by
  rw [prepare, deliver_of_nil h.arrivals, countInstruction]
  split
  · rfl
  · rfl

theorem Idle.secluded (h : r.Idle) : r.prepare.machine.Secluded := by
  rw [h.prepare_machine]
  exact secluded_of_pending_none h.pending

theorem Idle.passed (h : r.Idle) : (r.passed limits).Idle where
  pending := by
    rw [passed_machine]
    change r.prepare.machine.step.machine.pending = none
    rw [h.secluded.kept.1, h.prepare_machine, h.pending]
  arrivals := by
    rw [passed_arrivals, deliver_of_nil h.arrivals, h.arrivals]

/-- What an image does not read has no part in its runs: the arrivals if it has no handler and no
`INPUT`, and the place of the handler if nothing arrives. -/
theorem unread_input_irrelevant :
    (∀ image : Image, image.vector = none → (∀ c ∈ image.memory, c.opcode ≠ .input) →
      ∀ (limits : Limits) (arrivals others : List Arrival),
        simulate image arrivals limits = simulate image others limits) ∧
    ∀ (memory : Array Cell) (vector other : Option Word) (limits : Limits),
      simulate ⟨vector, memory⟩ [] limits = simulate ⟨other, memory⟩ [] limits := by
  constructor
  · intro image hvector hmemory limits arrivals others
    have hdeaf : (ofImage image).Deaf := ⟨hvector, hmemory, fun hphase => absurd rfl hphase⟩
    have hinStep : InStep limits fun r r' =>
        r.shown = r'.shown ∧ r.machine.Deaf ∧ r'.machine.Deaf :=
      inStep_of_secluded (fun r hr => (deaf_prepare hr).secluded) fun r hr => deaf_passed hr
    have hend : SameEnd limits (Run.start image arrivals) (Run.start image others) :=
      hinStep.sameEnd ⟨rfl, hdeaf, hdeaf⟩
    exact hend.simulate_eq
  · intro memory vector other limits
    have hidle (image : Image) : (Run.start image []).Idle := ⟨rfl, rfl⟩
    have hinStep : InStep limits fun r r' => r.shown = r'.shown ∧ r.Idle ∧ r'.Idle :=
      inStep_of_secluded (fun r hr => hr.secluded) fun r hr => hr.passed
    have hend : SameEnd limits (Run.start ⟨vector, memory⟩ []) (Run.start ⟨other, memory⟩ []) :=
      hinStep.sameEnd ⟨rfl, hidle _, hidle _⟩
    exact hend.simulate_eq

/-- A program that puts out a symbol over and over does not care what is typed. The one that waits
for input starves with a handler or without. -/
theorem unread_input_irrelevant_output :
    let image : Image := ⟨none, #[⟨0, .push, some 65⟩, ⟨1, .output, none⟩, ⟨2, .jump, some 1⟩]⟩
    let limits : Limits := { ticks := 6, trace := 1 }
    simulate image [⟨0, 66⟩, ⟨0, 67⟩] limits = simulate image [] limits ∧
      simulate { copying with vector := some 1 } [] limits = simulate copying [] limits := by
  intro image limits
  have hunread := unread_input_irrelevant
  exact ⟨hunread.1 image rfl (by decide) limits _ _, hunread.2 copying.memory _ _ limits⟩

end Unread

end Run

end Accumulator
