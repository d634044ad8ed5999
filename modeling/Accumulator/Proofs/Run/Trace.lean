import Accumulator.Proofs.Run.Limit
import Accumulator.Run.Log

/-!
What is traced of a run, in its report and in its log. A tick is traced if it
goes on and its number is below the limit of traces, by a snapshot of the machine
behind the micro-step. The log shows the text of each snapshot, and a warning at
the first tick that is not traced; nothing else in it depends on that limit.
-/

namespace Accumulator

namespace Log

def Entry.isDebug (e : Entry) : Bool := e.level == .debug

/-- The entry warns that no more is traced. -/
def Entry.isTraceLimit (e : Entry) : Bool :=
  e.level == .warning && e.message == "debug limit exceeded"

/-- The entry is there because of what is traced or not. -/
def Entry.isOfTrace (e : Entry) : Bool := e.isDebug || e.isTraceLimit

end Log

namespace Run

open Log (Entry)

def tracedEntry (s : Snapshot) : Entry := logEntry .debug s.text []

def limitEntry (limits : Limits) : Entry :=
  logEntry .warning "debug limit exceeded" [("debug_limit", toString limits.trace)]

/-- What a tick enters in the log apart from what it traces. -/
def notes (r : Run) : List Entry :=
  (Machine.stepEntry? r.prepare.machine.phase r.upcoming).toList ++
    match r.upcoming.result with
    | .error .endOfInput =>
      [logEntry .warning "input buffer is empty" [("tick", toString r.prepare.machine.tick)]]
    | _ => []

/-- The last entries of a run that ends in a tick. -/
def lastEntries (r : Run) : Ending → List Entry
  | .stopped _ => [r.endEntry]
  | .failed _ => []

/-- What is traced of a run up to the given tick, and what its log shows of that. -/
structure Traced (limits : Limits) (start : Run) (snapshots : Array Snapshot) (ticks : Nat)
    (log : List Entry) : Prop where
  size : snapshots.size = min limits.trace ticks
  snapshot : ∀ i (hi : i < snapshots.size), snapshots[i].tick = i ∧
    ∃ r, (start.course limits)[i]? = some r ∧ r.machine.tick = i ∧
      snapshots[i] = r.upcoming.machine.snapshot
  texts : log.filter Entry.isDebug = snapshots.toList.map tracedEntry
  warned : log.filter Entry.isTraceLimit = if limits.trace < ticks then [limitEntry limits] else []

variable {limits limits' : Limits} {start r r' : Run} {before : List Run} {ending : Ending}
  {n : Nat}

theorem upcoming_tick (r : Run) : r.upcoming.machine.tick = r.machine.tick := r.stepped_tick

section Report

theorem record_trace (limits : Limits) (r : Run) : (r.record limits).trace.toList =
    r.trace.toList ++ if r.machine.tick < limits.trace then [r.machine.snapshot] else [] := by
  unfold record
  split
  · exact Array.toList_push
  · exact (List.append_nil _).symm

theorem stepped_trace (r : Run) : r.stepped.trace = r.trace := by
  obtain ⟨pending, arrivals, hprepare⟩ := r.prepare_eq
  change r.prepare.trace = r.trace
  rw [hprepare]

theorem passed_trace (limits : Limits) (r : Run) : (r.passed limits).trace.toList =
    r.trace.toList ++
      if r.machine.tick < limits.trace then [r.upcoming.machine.snapshot] else [] := by
  change (r.stepped.record limits).trace.toList = _
  rw [record_trace, stepped_trace, stepped_tick]
  rfl

/-- What a run has traced it has traced in its ticks, one after the other. -/
theorem Through.trace_eq (h : Through limits start before r) (htrace : start.trace = #[]) :
    r.trace.toList = before.flatMap fun r =>
      if r.machine.tick < limits.trace then [r.upcoming.machine.snapshot] else [] := by
  induction h with
  | start => rw [htrace, List.flatMap_nil]
  | tick _ _ ih => rw [passed_trace, ih, List.flatMap_append, List.flatMap_singleton]

/-- What is taken of the ticks below a limit is what is taken of so many first ones. -/
theorem Through.flatMap_below {α : Type} (h : Through limits start before r)
    (htick : start.machine.tick = 0) (k : Nat) (f : Run → α) :
    (before.flatMap fun r => if r.machine.tick < k then [f r] else []) =
      (before.take k).map f := by
  induction h with
  | start => rw [List.flatMap_nil, List.take_nil, List.map_nil]
  | @tick before r hbefore _ ih =>
    have hlength : r.machine.tick = before.length := by rw [hbefore.tick_eq, htick, Nat.zero_add]
    rw [List.flatMap_append, List.flatMap_singleton, ih, List.take_append, List.map_append, hlength]
    by_cases hbelow : before.length < k
    · rw [if_pos hbelow, List.take_of_length_le (l := [r]) (Nat.sub_pos_of_lt hbelow)]
      rfl
    · rw [if_neg hbelow, Nat.sub_eq_zero_of_le (Nat.le_of_not_lt hbelow), List.take_zero]
      rfl

/-- What is taken of the tick at a limit is there if the run gets that far, and once. -/
theorem Through.flatMap_at {α : Type} (h : Through limits start before r)
    (htick : start.machine.tick = 0) (k : Nat) (x : α) :
    (before.flatMap fun r => if r.machine.tick = k then [x] else []) =
      if k < before.length then [x] else [] := by
  induction h with
  | start => rfl
  | @tick before r hbefore _ ih =>
    have hlength : r.machine.tick = before.length := by rw [hbefore.tick_eq, htick, Nat.zero_add]
    rw [List.flatMap_append, List.flatMap_singleton, ih, List.length_append,
      List.length_singleton, hlength]
    rcases Nat.lt_trichotomy k before.length with hbelow | rfl | habove
    · rw [if_pos hbelow, if_neg (Nat.ne_of_gt hbelow), if_pos (Nat.lt_succ_of_lt hbelow),
        List.append_nil]
    · rw [if_neg (Nat.lt_irrefl _), if_pos rfl, if_pos (Nat.lt_succ_self _), List.nil_append]
    · rw [if_neg (Nat.lt_asymm habove), if_neg (Nat.ne_of_lt habove),
        if_neg (Nat.not_lt_of_le habove), List.append_nil]

/-- Each tick of a course has the number of its place. -/
theorem Through.tick_getElem (h : Through limits start before r) {i : Nat}
    (hi : i < before.length) : before[i].machine.tick = start.machine.tick + i := by
  induction h with
  | start => nomatch hi
  | @tick before r hbefore _ ih =>
    rw [List.getElem_append]
    split
    next hearlier => exact ih hearlier
    next hlast =>
      have hlength : i = before.length := by
        rw [List.length_append, List.length_singleton] at hi
        omega
      simp only [List.getElem_singleton, hlength, hbefore.tick_eq]

theorem Through.trace_size (h : Through limits start before r) (htick : start.machine.tick = 0)
    (htrace : start.trace = #[]) : r.trace.size = min limits.trace before.length := by
  rw [← Array.length_toList, h.trace_eq htrace, h.flatMap_below htick, List.length_map,
    List.length_take]

/-- A snapshot shows the machine behind the micro-step of the tick with its number. -/
theorem Through.exists_traced (h : Through limits start before r)
    (htick : start.machine.tick = 0) (htrace : start.trace = #[]) {i : Nat}
    (hi : i < r.trace.size) : r.trace[i].tick = i ∧
      ∃ q, before[i]? = some q ∧ q.machine.tick = i ∧ r.trace[i] = q.upcoming.machine.snapshot := by
  have hbefore : i < before.length := by
    rw [h.trace_size htick htrace] at hi
    omega
  have hi' : before[i].machine.tick = i := by rw [h.tick_getElem hbefore, htick, Nat.zero_add]
  have hsnapshot : r.trace[i] = before[i].upcoming.machine.snapshot := by
    simp only [← Array.getElem_toList, h.trace_eq htrace, h.flatMap_below htick, List.getElem_map,
      List.getElem_take]
  refine ⟨?_, before[i], List.getElem?_eq_getElem hbefore, hi', hsnapshot⟩
  rw [hsnapshot]
  exact (upcoming_tick _).trans hi'

end Report

section Log

theorem isOfTrace_of_mem_stepEntry {phase : Phase} {s : Step} {e : Entry}
    (he : e ∈ (Machine.stepEntry? phase s).toList) : e.isOfTrace = false := by
  rw [Option.mem_toList] at he
  unfold Machine.stepEntry? at he
  split at he
  next => cases he
  next event _ _ =>
    cases event <;> cases he <;> rfl
  next =>
    split at he
    · cases he
      rfl
    · cases he

theorem isOfTrace_of_mem_notes {e : Entry} (he : e ∈ r.notes) : e.isOfTrace = false := by
  rcases List.mem_append.1 he with he | he
  · exact isOfTrace_of_mem_stepEntry he
  · split at he
    · rw [List.mem_singleton.1 he]
      rfl
    · cases he

theorem notes_eq (h : r.untraced = r'.untraced) : r.notes = r'.notes := by
  have hnotes (r : Run) : r.untraced.notes = r.notes := by
    rw [notes, untraced_prepare, untraced_upcoming]
    rfl
  rw [← hnotes, h, hnotes]

/-- A tick enters its notes in the log, and if it goes on what it traces. -/
theorem tickEntries_eq (limits : Limits) (r : Run) : r.tickEntries limits =
    r.notes ++ match Ending.behind? r.upcoming.result with
      | none => traceEntries limits r.upcoming.machine
      | some _ => [] := by
  simp only [tickEntries, notes, upcoming]
  cases r.prepare.machine.step.result with
  | ok status =>
    rw [List.append_nil]
    cases status <;> rfl
  | error f => cases f <;> simp [Ending.behind?]

theorem logFrom_of_running (hrunning : r.upcoming.result = .ok .running) :
    logFrom limits (n + 1) r = r.notes ++
      (traceEntries limits r.upcoming.machine ++ logFrom limits n (r.passed limits)) := by
  rw [logFrom, next_of_running hrunning, tickEntries_eq, hrunning, List.append_assoc]
  rfl

theorem logFrom_of_ending (hending : Ending.behind? r.upcoming.result = some ending) :
    logFrom limits (n + 1) r = r.notes ++ r.stepped.lastEntries ending := by
  rw [logFrom, next_of_ending hending, tickEntries_eq, hending, List.append_nil]
  cases ending <;> rfl

theorem filter_notes {p : Entry → Bool} (hp : ∀ e, e.isOfTrace = false → p e = false)
    (r : Run) : r.notes.filter p = [] :=
  List.filter_eq_nil_iff.2 fun e he => by rw [hp e (isOfTrace_of_mem_notes he)]; decide

theorem filter_lastEntries {p : Entry → Bool} (hp : ∀ e, e.isOfTrace = false → p e = false)
    (r : Run) (ending : Ending) : (r.lastEntries ending).filter p = [] := by
  cases ending with
  | failed f => rfl
  | stopped reason => simp [lastEntries, hp r.endEntry rfl]

/-- The entries of tracing in the log are those of the ticks of its course. -/
theorem filter_logFrom {p : Entry → Bool} (hp : ∀ e, e.isOfTrace = false → p e = false) (n : Nat)
    (r : Run) : (logFrom limits n r).filter p =
      (courseFrom limits n r).flatMap fun r =>
        (traceEntries limits r.upcoming.machine).filter p := by
  induction n generalizing r with
  | zero =>
    rw [logFrom, List.filter_cons_of_neg (by rw [hp _ rfl]; decide)]
    exact filter_lastEntries hp r (.stopped .tickLimit)
  | succ n ih =>
    rcases r.running_or_ending with hrunning | ⟨ending, hending⟩
    · rw [logFrom_of_running hrunning, courseFrom_of_running hrunning, List.filter_append,
        filter_notes hp, List.nil_append, List.filter_append, ih, List.flatMap_cons]
    · rw [logFrom_of_ending hending, courseFrom_of_ending hending, List.filter_append,
        filter_notes hp, filter_lastEntries hp]
      rfl

theorem filter_log {p : Entry → Bool} (hp : ∀ e, e.isOfTrace = false → p e = false) (r : Run) :
    (r.log limits).filter p = (r.course limits).flatMap fun r =>
      (traceEntries limits r.upcoming.machine).filter p := by
  rw [log, List.filter_cons_of_neg (by rw [hp _ rfl]; decide)]
  exact filter_logFrom hp _ r

theorem filter_isDebug_traceEntries (limits : Limits) (m : Machine) :
    (traceEntries limits m).filter Entry.isDebug =
      if m.tick < limits.trace then [tracedEntry m.snapshot] else [] := by
  unfold traceEntries
  split
  · rfl
  · split <;> rfl

theorem filter_isTraceLimit_traceEntries (limits : Limits) (m : Machine) :
    (traceEntries limits m).filter Entry.isTraceLimit =
      if m.tick = limits.trace then [limitEntry limits] else [] := by
  unfold traceEntries
  split
  next hbelow => rw [if_neg (Nat.ne_of_lt hbelow)]; rfl
  next => split <;> rfl

theorem filter_not_isOfTrace_traceEntries (limits : Limits) (m : Machine) :
    (traceEntries limits m).filter (!·.isOfTrace) = [] := by
  unfold traceEntries
  split
  · rfl
  · split <;> rfl

theorem lastEntries_eq (h : r.untraced = r'.untraced) (ending : Ending) :
    r.lastEntries ending = r'.lastEntries ending :=
  (congrArg (fun r => r.lastEntries ending) h :)

/-- Apart from the entries of tracing the log does not depend on what is traced. -/
theorem logFrom_untraced (hticks : limits.ticks = limits'.ticks) (n : Nat)
    (h : r.untraced = r'.untraced) :
    (logFrom limits n r).filter (!·.isOfTrace) = (logFrom limits' n r').filter (!·.isOfTrace) := by
  induction n generalizing r r' with
  | zero =>
    have hend : r.endEntry = r'.endEntry := (congrArg endEntry h :)
    rw [logFrom, logFrom, hticks, hend]
  | succ n ih =>
    rcases r.running_or_ending with hrunning | ⟨ending, hending⟩
    · rw [logFrom_of_running hrunning, logFrom_of_running (upcoming_eq h ▸ hrunning), notes_eq h]
      simp only [List.filter_append, filter_not_isOfTrace_traceEntries, List.nil_append]
      rw [ih (passed_untraced h)]
    · rw [logFrom_of_ending hending, logFrom_of_ending (upcoming_eq h ▸ hending), notes_eq h,
        lastEntries_eq (stepped_untraced h)]

theorem log_untraced (hticks : limits.ticks = limits'.ticks) (r : Run) :
    (r.log limits).filter (!·.isOfTrace) = (r.log limits').filter (!·.isOfTrace) := by
  rw [log, log, List.filter_cons, List.filter_cons, startEntry, startEntry, hticks,
    logFrom_untraced hticks _ rfl]

end Log

/-- A run from its first tick is traced, whatever it has come to. -/
theorem traced_complete (limits : Limits) (htick : start.machine.tick = 0)
    (htrace : start.trace = #[]) :
    Traced limits start (start.complete limits).1.trace
      (start.complete limits).1.machine.tick (start.log limits) := by
  obtain ⟨last, hthrough, hlast⟩ := complete_cases (htick ▸ Nat.zero_le limits.ticks)
  have hfinal : (start.complete limits).1.trace = last.trace ∧
      (start.complete limits).1.machine.tick = last.machine.tick := by
    rcases hlast with ⟨-, hcomplete⟩ | ⟨-, ending, -, hcomplete⟩
    · rw [hcomplete]
      exact ⟨rfl, rfl⟩
    · rw [hcomplete]
      exact ⟨last.stepped_trace, last.stepped_tick⟩
  have hticks : last.machine.tick = (start.course limits).length := by
    rw [hthrough.tick_eq, htick, Nat.zero_add]
  rw [hfinal.1, hfinal.2, hticks]
  refine ⟨hthrough.trace_size htick htrace, fun i hi => hthrough.exists_traced htick htrace hi,
    ?_, ?_⟩
  · rw [filter_log fun e he => (Bool.or_eq_false_iff.1 he).1, hthrough.trace_eq htrace,
      List.map_flatMap]
    simp only [filter_isDebug_traceEntries, upcoming_tick, apply_ite (List.map tracedEntry),
      List.map_cons, List.map_nil]
  · rw [filter_log fun e he => (Bool.or_eq_false_iff.1 he).2, ← hthrough.flatMap_at htick]
    simp only [filter_isTraceLimit_traceEntries, upcoming_tick]

/-- Raising the limit of ticks lets a run go on and changes no result that is not due to the limit.
The limit of traces has a part in nothing but what is traced: so many ticks are, each by what its
micro-step left, and the log shows them and warns once if there are more. -/
theorem limits_only_cut_short (image : Image) (arrivals : List Arrival) :
    let start := Run.start image arrivals
    (∀ short long : Limits, short.ticks ≤ long.ticks →
      Continued (simulate image arrivals short) (simulate image arrivals long)) ∧
    (∀ limits limits' : Limits, limits.ticks = limits'.ticks →
      (simulate image arrivals limits).map Report.untraced =
        (simulate image arrivals limits').map Report.untraced ∧
      (start.complete limits).1.untraced = (start.complete limits').1.untraced ∧
      (start.log limits).filter (!·.isOfTrace) = (start.log limits').filter (!·.isOfTrace)) ∧
    ∀ limits : Limits,
      let final := (start.complete limits).1
      Traced limits start final.trace final.machine.tick (start.log limits) ∧
        ∀ report, simulate image arrivals limits = .ok report →
          report.trace = final.trace ∧ report.ticks = final.machine.tick := by
  intro start
  refine ⟨fun short long hle => continued_of_le hle image arrivals, ?_, ?_⟩
  · intro limits limits' hticks
    exact ⟨simulate_untraced hticks image arrivals, (complete_untraced hticks start).1,
      log_untraced hticks start⟩
  · intro limits final
    refine ⟨traced_complete limits rfl rfl, fun report hreport => ?_⟩
    rw [← (simulate_eq_ok_iff.1 hreport).2]
    exact ⟨rfl, rfl⟩

/-- A program that puts out a symbol and loops, stopped before its output and behind it, with its
first tick traced or none. -/
theorem limits_only_cut_short_looping :
    let image : Image := ⟨none, #[⟨0, .push, some 65⟩, ⟨1, .output, none⟩, ⟨2, .jump, some 2⟩]⟩
    let short : Limits := { ticks := 3, trace := 1 }
    let early : Report := ⟨"", 2, 3, .tickLimit, #[⟨0, .push, .decode, 1, 0, 0, false, false⟩]⟩
    let late : Report := ⟨"A", 2, 4, .tickLimit, #[]⟩
    simulate image [] { ticks := 4, trace := 0 } = .ok late ∧ Continued (.ok early) (.ok late) ∧
      (simulate image [] { short with trace := 0 }).map Report.untraced = .ok early.untraced ∧
      ((Run.start image []).log short).filter Entry.isTraceLimit = [limitEntry short] := by
  intro image short early late
  have hearly : simulate image [] short = .ok early := simulate_eq_ok_iff.2 (by decide +kernel)
  have hlate : simulate image [] { ticks := 4, trace := 0 } = .ok late :=
    simulate_eq_ok_iff.2 (by decide +kernel)
  obtain ⟨hcontinued, huntraced, htraced⟩ := limits_only_cut_short image []
  refine ⟨hlate, ?_, ?_, ?_⟩
  · rw [← hearly, ← hlate]
    exact hcontinued _ _ (by decide)
  · rw [← (huntraced short { short with trace := 0 } rfl).1, hearly]
    rfl
  · rw [(htraced short).1.warned, ← ((htraced short).2 early hearly).2]
    rfl

end Run

end Accumulator
