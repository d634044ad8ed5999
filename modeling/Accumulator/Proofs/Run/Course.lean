import Accumulator.Proofs.Machine.MicroStep
import Accumulator.Run

/-!
The course of a run: the states in which its ticks begin. A tick either goes on
to the next one or ends the run, and the result of its micro-step tells which.
The clock moves only between ticks, so the course is as long as the clock has
counted, and the run stops at its limit or in the tick behind its course.
-/

namespace Accumulator

/-- How a micro-step with the result ends a run, if it does. -/
def Ending.behind? : Except Fault Status → Option Ending
  | .ok .running => none
  | .ok .halted => some (.stopped .halted)
  | .error .endOfInput => some (.stopped .endOfInput)
  | .error f => some (.failed f)

theorem Ending.behind?_eq_none_iff {result : Except Fault Status} :
    Ending.behind? result = none ↔ result = .ok .running := by
  cases result with
  | ok status => cases status <;> simp [Ending.behind?]
  | error f => cases f <;> simp [Ending.behind?]

/-- Only the driver of a run knows of the limit. -/
theorem Ending.behind?_ne_tickLimit (result : Except Fault Status) :
    Ending.behind? result ≠ some (.stopped .tickLimit) := by
  cases result with
  | ok status => cases status <;> nofun
  | error f => cases f <;> nofun

theorem Machine.step_tick (m : Machine) : m.step.machine.tick = m.tick := by
  have hstep := m.microStep
  generalize m.step = s at hstep ⊢
  cases hstep <;> rfl

namespace Run

/-- The micro-step of the tick that begins. -/
def upcoming (r : Run) : Step := r.prepare.machine.step

/-- The run behind the micro-step of the tick that begins. -/
def stepped (r : Run) : Run := r.prepare.observe r.upcoming

/-- The run behind the tick that begins, if it goes on. -/
def passed (limits : Limits) (r : Run) : Run := (r.stepped.record limits).advance

/-- The states in which the next ticks begin, for at most so many of them. The tick that ends the
run is not one of them. -/
def courseFrom (limits : Limits) : Nat → Run → List Run
  | 0, _ => []
  | n + 1, r =>
    match r.next limits with
    | (r', none) => r :: courseFrom limits n r'
    | (_, some _) => []

def course (limits : Limits) (r : Run) : List Run :=
  courseFrom limits (limits.ticks - r.machine.tick) r

/-- The states in which micro-steps are taken, for at most so many ticks. They are those of the
course, and that of the tick which ends the run. -/
def begunFrom (limits : Limits) : Nat → Run → List Run
  | 0, _ => []
  | n + 1, r =>
    r :: match r.next limits with
      | (r', none) => begunFrom limits n r'
      | (_, some _) => []

def begun (limits : Limits) (r : Run) : List Run :=
  begunFrom limits (limits.ticks - r.machine.tick) r

/-- The arrival that becomes pending in the tick that begins. -/
def due? (r : Run) : Option Arrival := r.arrivals.head?.filter (·.tick ≤ r.machine.tick)

/-- The run gets from its start through the ticks that began in the given states. -/
inductive Through (limits : Limits) (start : Run) : List Run → Run → Prop where
  | start : Through limits start [] start
  | tick {before : List Run} {r : Run} (hbefore : Through limits start before r)
    (hrunning : r.upcoming.result = .ok .running) :
    Through limits start (before ++ [r]) (r.passed limits)

/-- The loop of a run, with nothing that bounds how often it turns. -/
inductive Loops (limits : Limits) : Run → Run × Ending → Prop where
  | limit {r : Run} (hlimit : limits.ticks ≤ r.machine.tick) :
    Loops limits r (r, .stopped .tickLimit)
  | stop {r r' : Run} {ending : Ending} (hbelow : r.machine.tick < limits.ticks)
    (hnext : r.next limits = (r', some ending)) : Loops limits r (r', ending)
  | turn {r r' : Run} {c : Run × Ending} (hbelow : r.machine.tick < limits.ticks)
    (hnext : r.next limits = (r', none)) (hrest : Loops limits r' c) : Loops limits r c

variable {limits : Limits} {start r r' : Run} {before : List Run} {ending : Ending} {n : Nat}

theorem deliver_eq (r : Run) : r.deliver = match r.due? with
    | none => r
    | some a =>
      { r with machine := r.machine.arrive a.symbol, arrivals := r.arrivals.tail } := by
  obtain ⟨m, arrivals, _, _, _⟩ := r
  cases arrivals with
  | nil => rfl
  | cons a rest =>
    by_cases hdue : a.tick ≤ m.tick
    · simp [deliver, due?, Option.filter, hdue]
    · simp [deliver, due?, Option.filter, hdue]

/-- Before the micro-step at most a symbol arrives and the tick is counted. -/
theorem prepare_eq (r : Run) : ∃ pending arrivals, r.prepare =
    { r with
      machine := { r.machine with pending }
      arrivals
      instructions := r.instructions + if r.machine.phase = .fetch then 1 else 0 } := by
  have hdeliver : ∃ pending arrivals, r.deliver =
      { r with machine := { r.machine with pending }, arrivals } := by
    rw [deliver_eq]
    cases r.due? with
    | none => exact ⟨_, _, rfl⟩
    | some a => exact ⟨_, _, rfl⟩
  obtain ⟨pending, arrivals, hdeliver⟩ := hdeliver
  refine ⟨pending, arrivals, ?_⟩
  unfold prepare countInstruction
  rw [hdeliver]
  by_cases hphase : r.machine.phase = .fetch
  · simp only [hphase, if_true]
  · simp only [hphase, if_false]
    rfl

theorem prepare_phase (r : Run) : r.prepare.machine.phase = r.machine.phase := by
  obtain ⟨pending, arrivals, hprepare⟩ := r.prepare_eq
  rw [hprepare]

theorem prepare_events (r : Run) : r.prepare.events = r.events := by
  obtain ⟨pending, arrivals, hprepare⟩ := r.prepare_eq
  rw [hprepare]

/-- Behind the micro-step the clock is advanced, and perhaps the machine traced. -/
theorem passed_eq (limits : Limits) (r : Run) : ∃ trace,
    r.passed limits = { r.stepped with machine := r.stepped.machine.advance, trace } := by
  unfold passed record
  split
  · exact ⟨_, rfl⟩
  · exact ⟨_, rfl⟩

theorem passed_machine (limits : Limits) (r : Run) :
    (r.passed limits).machine = r.stepped.machine.advance := by
  obtain ⟨trace, hpassed⟩ := r.passed_eq limits
  rw [hpassed]

theorem passed_arrivals (limits : Limits) (r : Run) :
    (r.passed limits).arrivals = r.deliver.arrivals := by
  obtain ⟨trace, hpassed⟩ := r.passed_eq limits
  rw [hpassed]
  change r.deliver.countInstruction.arrivals = _
  unfold countInstruction
  split
  · rfl
  · rfl

theorem next_eq (limits : Limits) (r : Run) :
    r.next limits = match Ending.behind? r.upcoming.result with
      | none => (r.passed limits, none)
      | some ending => (r.stepped, some ending) := by
  simp only [next, passed, stepped, upcoming]
  cases r.prepare.machine.step.result with
  | ok status => cases status <;> rfl
  | error f => cases f <;> rfl

/-- A tick goes on or ends the run. -/
theorem running_or_ending (r : Run) : r.upcoming.result = .ok .running ∨
    ∃ ending, Ending.behind? r.upcoming.result = some ending := by
  cases hending : Ending.behind? r.upcoming.result with
  | none => exact .inl (Ending.behind?_eq_none_iff.1 hending)
  | some ending => exact .inr ⟨ending, rfl⟩

theorem next_of_running (hrunning : r.upcoming.result = .ok .running) :
    r.next limits = (r.passed limits, none) := by
  rw [next_eq, hrunning]
  rfl

theorem next_of_ending (hending : Ending.behind? r.upcoming.result = some ending) :
    r.next limits = (r.stepped, some ending) := by
  rw [next_eq, hending]

@[simp] theorem stepped_tick (r : Run) : r.stepped.machine.tick = r.machine.tick := by
  obtain ⟨pending, arrivals, hprepare⟩ := r.prepare_eq
  change r.prepare.machine.step.machine.tick = r.machine.tick
  rw [Machine.step_tick, hprepare]

@[simp] theorem passed_tick (limits : Limits) (r : Run) :
    (r.passed limits).machine.tick = r.machine.tick + 1 := by
  rw [passed_machine]
  change r.stepped.machine.tick + 1 = _
  rw [stepped_tick]

theorem goOn_of_running (hrunning : r.upcoming.result = .ok .running) :
    goOn limits (n + 1) r = goOn limits n (r.passed limits) := by
  rw [goOn, next_of_running hrunning]

theorem goOn_of_ending (hending : Ending.behind? r.upcoming.result = some ending) :
    goOn limits (n + 1) r = (r.stepped, ending) := by
  rw [goOn, next_of_ending hending]

theorem courseFrom_of_running (hrunning : r.upcoming.result = .ok .running) :
    courseFrom limits (n + 1) r = r :: courseFrom limits n (r.passed limits) := by
  rw [courseFrom, next_of_running hrunning]

theorem courseFrom_of_ending (hending : Ending.behind? r.upcoming.result = some ending) :
    courseFrom limits (n + 1) r = [] := by
  rw [courseFrom, next_of_ending hending]

theorem begunFrom_of_running (hrunning : r.upcoming.result = .ok .running) :
    begunFrom limits (n + 1) r = r :: begunFrom limits n (r.passed limits) := by
  rw [begunFrom, next_of_running hrunning]

theorem begunFrom_of_ending (hending : Ending.behind? r.upcoming.result = some ending) :
    begunFrom limits (n + 1) r = [r] := by
  rw [begunFrom, next_of_ending hending]

theorem Through.tick_eq (h : Through limits start before r) :
    r.machine.tick = start.machine.tick + before.length := by
  induction h with
  | start => rfl
  | tick _ _ ih =>
    rw [passed_tick, ih, List.length_append, List.length_singleton, Nat.add_assoc]

/-- What a run does that goes on for so many ticks: it gets through its course, and there it has
no tick left or ends in the one that begins. -/
theorem goOn_cases (n : Nat) (h : Through limits start before r) :
    ∃ last, Through limits start (before ++ courseFrom limits n r) last ∧
      ((courseFrom limits n r).length = n ∧ goOn limits n r = (last, .stopped .tickLimit) ∨
        (courseFrom limits n r).length < n ∧ ∃ ending,
          Ending.behind? last.upcoming.result = some ending ∧
            goOn limits n r = (last.stepped, ending)) := by
  -- induction on the ticks that are left, with what is behind the run growing
  induction n generalizing before r with
  | zero => exact ⟨r, by rwa [courseFrom, List.append_nil], .inl ⟨rfl, rfl⟩⟩
  | succ n ih =>
    rcases r.running_or_ending with hrunning | ⟨ending, hending⟩
    · obtain ⟨last, hthrough, hlast⟩ := ih (.tick h hrunning)
      rw [courseFrom_of_running hrunning, goOn_of_running hrunning]
      refine ⟨last, by rwa [List.append_cons], ?_⟩
      simpa only [List.length_cons, Nat.add_right_cancel_iff, Nat.add_lt_add_iff_right] using hlast
    · rw [courseFrom_of_ending hending, goOn_of_ending hending, List.append_nil]
      exact ⟨r, h, .inr ⟨Nat.succ_pos n, ending, hending, rfl⟩⟩

/-- A run gets through its course, and behind it the limit has come or a tick ends the run. -/
theorem complete_cases (hstart : start.machine.tick ≤ limits.ticks) :
    ∃ last, Through limits start (start.course limits) last ∧
      (last.machine.tick = limits.ticks ∧
          start.complete limits = (last, .stopped .tickLimit) ∨
        last.machine.tick < limits.ticks ∧ ∃ ending,
          Ending.behind? last.upcoming.result = some ending ∧
            start.complete limits = (last.stepped, ending)) := by
  obtain ⟨last, hthrough, hlast⟩ :=
    goOn_cases (limits.ticks - start.machine.tick) (.start : Through limits start [] start)
  rw [List.nil_append] at hthrough
  have htick := hthrough.tick_eq
  refine ⟨last, hthrough, ?_⟩
  rcases hlast with ⟨hlength, hcomplete⟩ | ⟨hlength, hcomplete⟩
  · exact .inl ⟨by omega, hcomplete⟩
  · exact .inr ⟨by omega, hcomplete⟩

/-- Wherever a micro-step is taken, the run got there before its limit. -/
theorem Through.of_mem_begunFrom {q : Run} (n : Nat) (h : Through limits start before r)
    (hq : q ∈ begunFrom limits n r) :
    (∃ behind, Through limits start behind q) ∧ q.machine.tick < r.machine.tick + n := by
  induction n generalizing before r with
  | zero => nomatch hq
  | succ n ih =>
    rcases r.running_or_ending with hrunning | ⟨ending, hending⟩
    · rw [begunFrom_of_running hrunning] at hq
      rcases List.mem_cons.1 hq with rfl | hq
      · exact ⟨⟨before, h⟩, by omega⟩
      · obtain ⟨hthrough, htick⟩ := ih (.tick h hrunning) hq
        rw [passed_tick] at htick
        exact ⟨hthrough, by omega⟩
    · rw [begunFrom_of_ending hending] at hq
      cases List.mem_singleton.1 hq
      exact ⟨⟨before, h⟩, by omega⟩

theorem running_of_next (hnext : r.next limits = (r', none)) :
    r.upcoming.result = .ok .running := by
  rcases r.running_or_ending with hrunning | ⟨ending, hending⟩
  · exact hrunning
  · rw [next_of_ending hending] at hnext
    cases hnext

/-- The loop of a run ends, in one way only, and the ticks up to the limit are enough for it. -/
theorem loops_iff {c : Run × Ending} : Loops limits r c ↔ r.complete limits = c := by
  constructor
  · intro h
    induction h with
    | limit hlimit =>
      rw [complete, Nat.sub_eq_zero_of_le hlimit]
      rfl
    | @stop r _ _ hbelow hnext =>
      obtain ⟨n, hn⟩ := Nat.exists_eq_add_one_of_ne_zero (Nat.sub_ne_zero_of_lt hbelow)
      rw [complete, hn, goOn, hnext]
    | @turn r r' _ hbelow hnext _ ih =>
      have hrunning := running_of_next hnext
      rw [next_of_running hrunning] at hnext
      cases hnext
      have hticks : limits.ticks - r.machine.tick =
          limits.ticks - (r.passed limits).machine.tick + 1 := by
        rw [passed_tick]
        omega
      rw [complete, hticks, goOn_of_running hrunning]
      exact ih
  · rintro rfl
    -- induction on the ticks up to the limit, which is all that the loop has left
    unfold complete
    generalize hn : limits.ticks - r.machine.tick = n
    induction n generalizing r with
    | zero => exact .limit (Nat.sub_eq_zero_iff_le.1 hn)
    | succ n ih =>
      have hbelow : r.machine.tick < limits.ticks := by omega
      rcases r.running_or_ending with hrunning | ⟨ending, hending⟩
      · rw [goOn_of_running hrunning]
        refine .turn hbelow (next_of_running hrunning) (ih ?_)
        rw [passed_tick]
        omega
      · rw [goOn_of_ending hending]
        exact .stop hbelow (next_of_ending hending)

/-- A run that stopped has a report, and a fault is the result of a run that failed. -/
theorem simulate_eq (image : Image) (arrivals : List Arrival) (limits : Limits) :
    simulate image arrivals limits = match ((Run.start image arrivals).complete limits).2 with
      | .stopped reason => .ok (((Run.start image arrivals).complete limits).1.report reason)
      | .failed f => .error f := by
  unfold simulate
  split
  next hcomplete => rw [hcomplete]
  next hcomplete => rw [hcomplete]

/-- A result is a report if it is that of the run, with the reason for which the run stopped. -/
theorem simulate_eq_ok_iff {image : Image} {arrivals : List Arrival} {report : Report} :
    simulate image arrivals limits = .ok report ↔
      ((Run.start image arrivals).complete limits).2 = .stopped report.stop ∧
        ((Run.start image arrivals).complete limits).1.report report.stop = report := by
  rw [simulate_eq]
  cases ((Run.start image arrivals).complete limits).2 with
  | failed f => simp
  | stopped reason =>
    constructor
    · rintro ⟨⟩
      exact ⟨rfl, rfl⟩
    · rintro ⟨hreason, hreport⟩
      cases hreason
      exact congrArg Except.ok hreport

end Run

end Accumulator
