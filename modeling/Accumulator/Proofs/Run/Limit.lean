import Accumulator.Proofs.Run.Course
import Accumulator.Proofs.Run.Record

/-!
Runs of one program under different limits. The limit of traces decides what is
traced and nothing else. The limit of ticks decides when the run is stopped: a
run that ends below it ends in the same way under a higher one, and a run that
is stopped at it goes on from there, so all that it counts and puts out grows.
-/

namespace Accumulator

/-- All of a report but what was traced. -/
def Report.untraced (report : Report) : Report := { report with trace := #[] }

/-- What a higher limit of ticks makes of a result. A result that is not due to the limit stays, and
a run that was stopped at the limit goes on. -/
inductive Continued : Except Fault Report → Except Fault Report → Prop where
  | failed (f : Fault) : Continued (.error f) (.error f)
  | stopped {report further : Report} (hstop : report.stop ≠ .tickLimit)
    (hsame : further.untraced = report.untraced) : Continued (.ok report) (.ok further)
  | further {report further : Report} (hstop : report.stop = .tickLimit)
    (houtput : ∃ more, further.output = report.output ++ more)
    (hticks : report.ticks ≤ further.ticks)
    (hinstructions : report.instructions ≤ further.instructions) :
    Continued (.ok report) (.ok further)
  | furtherFailed {report : Report} (hstop : report.stop = .tickLimit) (f : Fault) :
    Continued (.ok report) (.error f)

namespace Run

/-- All of a run but what was traced. -/
def untraced (r : Run) : Run := { r with trace := #[] }

/-- What the run counts and puts out is continued by the other run. -/
structure Grows (r r' : Run) : Prop where
  output : r.machine.output.toList <+: r'.machine.output.toList
  ticks : r.machine.tick ≤ r'.machine.tick
  instructions : r.instructions ≤ r'.instructions

variable {limits limits' : Limits} {r r' : Run} {ending : Ending} {n : Nat}

theorem untraced_deliver (r : Run) : r.untraced.deliver = r.deliver.untraced := by
  obtain ⟨m, arrivals, _, _, _⟩ := r
  cases arrivals with
  | nil => rfl
  | cons a rest =>
    by_cases hdue : a.tick ≤ m.tick
    · simp only [deliver, untraced, hdue, if_true]
    · simp only [deliver, untraced, hdue, if_false]

theorem untraced_countInstruction (r : Run) :
    r.untraced.countInstruction = r.countInstruction.untraced := by
  unfold countInstruction untraced
  by_cases hphase : r.machine.phase = .fetch
  · simp only [hphase, if_true]
  · simp only [hphase, if_false]

theorem untraced_prepare (r : Run) : r.untraced.prepare = r.prepare.untraced := by
  rw [prepare, untraced_deliver, untraced_countInstruction]
  rfl

theorem untraced_upcoming (r : Run) : r.untraced.upcoming = r.upcoming := by
  rw [upcoming, untraced_prepare]
  rfl

theorem untraced_stepped (r : Run) : r.untraced.stepped = r.stepped.untraced := by
  rw [stepped, untraced_prepare, untraced_upcoming]
  rfl

theorem upcoming_eq (h : r.untraced = r'.untraced) : r.upcoming = r'.upcoming := by
  rw [← untraced_upcoming, h, untraced_upcoming]

theorem stepped_untraced (h : r.untraced = r'.untraced) :
    r.stepped.untraced = r'.stepped.untraced := by
  rw [← untraced_stepped, h, untraced_stepped]

theorem passed_untraced (h : r.untraced = r'.untraced) :
    (r.passed limits).untraced = (r'.passed limits').untraced := by
  have hpassed (limits : Limits) (r : Run) : (r.passed limits).untraced =
      { r.stepped.untraced with machine := r.stepped.untraced.machine.advance } := by
    obtain ⟨trace, hpassed⟩ := r.passed_eq limits
    rw [hpassed]
    rfl
  rw [hpassed, hpassed, stepped_untraced h]

/-- The limit of traces has no part in what a run does and in how it ends. -/
theorem goOn_untraced (n : Nat) (h : r.untraced = r'.untraced) :
    (goOn limits n r).1.untraced = (goOn limits' n r').1.untraced ∧
      (goOn limits n r).2 = (goOn limits' n r').2 := by
  induction n generalizing r r' with
  | zero => exact ⟨h, rfl⟩
  | succ n ih =>
    rcases r.running_or_ending with hrunning | ⟨ending, hending⟩
    · rw [goOn_of_running hrunning, goOn_of_running (upcoming_eq h ▸ hrunning)]
      exact ih (passed_untraced h)
    · rw [goOn_of_ending hending, goOn_of_ending (upcoming_eq h ▸ hending)]
      exact ⟨stepped_untraced h, rfl⟩

theorem complete_untraced (hticks : limits.ticks = limits'.ticks) (r : Run) :
    (r.complete limits).1.untraced = (r.complete limits').1.untraced ∧
      (r.complete limits).2 = (r.complete limits').2 := by
  rw [complete, complete, hticks]
  exact goOn_untraced _ rfl

theorem Grows.refl (r : Run) : r.Grows r := ⟨List.prefix_rfl, Nat.le_refl _, Nat.le_refl _⟩

theorem Grows.trans {r'' : Run} (h : r.Grows r') (h' : r'.Grows r'') : r.Grows r'' :=
  ⟨h.output.trans h'.output, Nat.le_trans h.ticks h'.ticks,
    Nat.le_trans h.instructions h'.instructions⟩

theorem grows_stepped (r : Run) : r.Grows r.stepped := by
  obtain ⟨pending, arrivals, hprepare⟩ := r.prepare_eq
  refine ⟨?_, Nat.le_of_eq r.stepped_tick.symm, ?_⟩
  · change _ <+: r.prepare.machine.step.machine.output.toList
    rw [r.prepare.machine.microStep.output_eq, hprepare]
    exact List.prefix_append _ _
  · change _ ≤ r.prepare.instructions
    rw [hprepare]
    exact Nat.le_add_right _ _

theorem grows_passed (limits : Limits) (r : Run) : r.Grows (r.passed limits) := by
  obtain ⟨trace, hpassed⟩ := r.passed_eq limits
  obtain ⟨houtput, hticks, hinstructions⟩ := r.grows_stepped
  rw [hpassed]
  exact ⟨houtput, Nat.le_succ_of_le hticks, hinstructions⟩

theorem grows_goOn (limits : Limits) (n : Nat) (r : Run) : r.Grows (goOn limits n r).1 := by
  induction n generalizing r with
  | zero => exact .refl r
  | succ n ih =>
    rcases r.running_or_ending with hrunning | ⟨ending, hending⟩
    · rw [goOn_of_running hrunning]
      exact (r.grows_passed limits).trans (ih _)
    · rw [goOn_of_ending hending]
      exact r.grows_stepped

/-- A run that has no tick left goes on where it was stopped when it is given more. -/
theorem goOn_add_of_limit {a : Nat} (b : Nat) (hlimit : (goOn limits a r).2 = .stopped .tickLimit) :
    goOn limits (a + b) r = goOn limits b (goOn limits a r).1 := by
  induction a generalizing r with
  | zero =>
    rw [Nat.zero_add]
    rfl
  | succ a ih =>
    rcases r.running_or_ending with hrunning | ⟨ending, hending⟩
    · rw [goOn_of_running hrunning] at hlimit
      rw [Nat.succ_add, goOn_of_running hrunning, goOn_of_running hrunning, ih hlimit]
    · rw [goOn_of_ending hending] at hlimit
      exact absurd (hending.trans (congrArg some hlimit)) (Ending.behind?_ne_tickLimit _)

/-- A run that has ended does not use more ticks. -/
theorem goOn_add_of_ending {a : Nat} (b : Nat)
    (hending : (goOn limits a r).2 ≠ .stopped .tickLimit) :
    goOn limits (a + b) r = goOn limits a r := by
  induction a generalizing r with
  | zero => exact absurd rfl hending
  | succ a ih =>
    rw [Nat.succ_add]
    rcases r.running_or_ending with hrunning | ⟨_, hbehind⟩
    · rw [goOn_of_running hrunning] at hending
      rw [goOn_of_running hrunning, goOn_of_running hrunning, ih hending]
    · rw [goOn_of_ending hbehind, goOn_of_ending hbehind]

section Raise

variable {short long : Limits}

theorem Grows.of_untraced {r'' : Run} (h : r.Grows r') (hsame : r''.untraced = r'.untraced) :
    r.Grows r'' := by
  have hmachine : r''.machine = r'.machine := (congrArg Run.machine hsame :)
  have hinstructions : r''.instructions = r'.instructions := (congrArg Run.instructions hsame :)
  exact ⟨hmachine ▸ h.output, hmachine ▸ h.ticks, hinstructions ▸ h.instructions⟩

/-- A run under a higher limit is one under the lower limit that is given more ticks. -/
theorem complete_of_le (hle : short.ticks ≤ long.ticks) (r : Run) : ∃ more,
    (r.complete long).1.untraced =
        (goOn short (short.ticks - r.machine.tick + more) r).1.untraced ∧
      (r.complete long).2 = (goOn short (short.ticks - r.machine.tick + more) r).2 := by
  obtain ⟨more, hmore⟩ := Nat.exists_eq_add_of_le (Nat.sub_le_sub_right hle r.machine.tick)
  refine ⟨more, ?_⟩
  rw [complete, hmore]
  exact goOn_untraced _ rfl

theorem complete_of_ending (hle : short.ticks ≤ long.ticks) (r : Run)
    (hending : (r.complete short).2 ≠ .stopped .tickLimit) :
    (r.complete long).1.untraced = (r.complete short).1.untraced ∧
      (r.complete long).2 = (r.complete short).2 := by
  obtain ⟨more, hlong⟩ := complete_of_le hle r
  rwa [goOn_add_of_ending more hending] at hlong

theorem grows_complete (hle : short.ticks ≤ long.ticks) (r : Run) :
    (r.complete short).1.Grows (r.complete long).1 := by
  obtain ⟨more, hlong, -⟩ := complete_of_le hle r
  by_cases hending : (r.complete short).2 = .stopped .tickLimit
  · rw [goOn_add_of_limit more hending] at hlong
    exact (grows_goOn short more _).of_untraced hlong
  · rw [goOn_add_of_ending more hending] at hlong
    exact (Grows.refl _).of_untraced hlong

end Raise

theorem simulate_untraced (hticks : limits.ticks = limits'.ticks) (image : Image)
    (arrivals : List Arrival) :
    (simulate image arrivals limits).map Report.untraced =
      (simulate image arrivals limits').map Report.untraced := by
  rw [simulate_eq, simulate_eq]
  obtain ⟨hsame, hending⟩ := complete_untraced hticks (Run.start image arrivals)
  rw [hending]
  cases ((Run.start image arrivals).complete limits').2 with
  | failed f => rfl
  | stopped reason => exact congrArg (fun r => Except.ok (r.report reason)) hsame

/-- What a run puts out grows as a text. -/
theorem Grows.outputText (h : r.Grows r') :
    ∃ more, r'.machine.outputText = r.machine.outputText ++ more := by
  obtain ⟨symbols, hsymbols⟩ := h.output
  refine ⟨String.join (symbols.map Word.symbolText), ?_⟩
  rw [outputText_eq, outputText_eq, ← hsymbols, List.map_append, String.join_append]

theorem continued_of_le {short long : Limits} (hle : short.ticks ≤ long.ticks) (image : Image)
    (arrivals : List Arrival) :
    Continued (simulate image arrivals short) (simulate image arrivals long) := by
  rw [simulate_eq, simulate_eq]
  generalize hstart : Run.start image arrivals = start
  have hgrows := grows_complete hle start
  have hfinal := complete_of_ending hle start
  cases hshort : (start.complete short).2 with
  | failed f =>
    rw [(hfinal (hshort ▸ nofun)).2, hshort]
    exact .failed f
  | stopped reason =>
    by_cases hlimit : reason = .tickLimit
    · cases (start.complete long).2 with
      | failed f => exact .furtherFailed hlimit f
      | stopped reason => exact .further hlimit hgrows.outputText hgrows.ticks hgrows.instructions
    · obtain ⟨hsame, hending⟩ := hfinal (by rw [hshort]; simpa using hlimit)
      rw [hending, hshort]
      exact .stopped hlimit (congrArg (fun r => r.report reason) hsame)

end Run

end Accumulator
