import Accumulator.Proofs.Machine.Latch
import Accumulator.Proofs.Machine.Replay
import Accumulator.Proofs.Run.Course

/-!
Runs as sessions, and their events as a record of them. A tick of a run is the
arrival of a symbol at most, a micro-step and a tick of the clock, so what holds
along sessions holds of runs, however they end. The events of a run tell its
changes of memory, its output and whether it has halted.
-/

namespace Accumulator

namespace Machine

/-- The machine executes `HALT`. -/
structure Halts (m : Machine) : Prop where
  phase : m.phase = .decode
  opcode : m.instruction.opcode = .halt
  step : m.step = ⟨m, .ok .halted, some (.halt m.instruction.index)⟩

/-- A step that does not halt the machine tells of no halt. -/
theorem halts_or (m : Machine) :
    m.Halts ∨ m.step.result ≠ .ok .halted ∧ ∀ address, .halt address ∉ m.step.event.toList := by
  have hstep := m.microStep
  generalize hs : m.step = s at hstep
  cases hstep with
  | halt hphase hhalt => exact .inl ⟨hphase, hhalt, hs⟩
  | _ => exact .inr (by simp [fail, finish, proceed, enterInterrupt])

end Machine

open Machine

namespace Run

/-- The run has done to a machine what the actions do. -/
structure Follows (r : Run) (start : Machine) (actions : List Action) : Prop where
  machine : r.machine = start.after actions
  events : r.events.toList = start.events actions

/-- What a tick begins with. -/
def arriving (r : Run) : List Action := r.due?.toList.map fun a => .input a.symbol

/-- All that a tick does with the machine. -/
def turn (r : Run) : List Action :=
  r.arriving ++ .step :: match Ending.behind? r.upcoming.result with
    | none => [.tick]
    | some _ => []

variable {r : Run} {start : Machine} {actions : List Action} {limits : Limits}

theorem follows_start (image : Image) (arrivals : List Arrival) :
    (Run.start image arrivals).Follows (.ofImage image) [] :=
  ⟨rfl, rfl⟩

theorem Follows.deliver (h : r.Follows start actions) :
    r.deliver.Follows start (actions ++ r.arriving) := by
  unfold arriving
  rw [deliver_eq]
  cases r.due? with
  | none =>
    change r.Follows start (actions ++ [])
    rwa [List.append_nil]
  | some a =>
    refine ⟨?_, ?_⟩
    · change r.machine.arrive a.symbol = start.after (actions ++ [.input a.symbol])
      rw [after_concat, ← h.machine]
      rfl
    · change r.events.toList = start.events (actions ++ [.input a.symbol])
      rw [events_concat, ← h.events]
      exact (List.append_nil _).symm

theorem Follows.prepare (h : r.Follows start actions) :
    r.prepare.Follows start (actions ++ r.arriving) := by
  have hdeliver := h.deliver
  unfold Run.prepare countInstruction
  split
  · exact ⟨hdeliver.machine, hdeliver.events⟩
  · exact hdeliver

theorem Follows.observe (h : r.Follows start actions) :
    (r.observe r.machine.step).Follows start (actions ++ [.step]) where
  machine := by
    rw [after_concat, ← h.machine]
    rfl
  events := by
    rw [events_concat, ← h.events, ← h.machine]
    exact Array.toList_appendList

theorem Follows.advance (h : r.Follows start actions) (limits : Limits) :
    (r.record limits).advance.Follows start (actions ++ [.tick]) where
  machine := by
    rw [after_concat, ← h.machine, record]
    split <;> rfl
  events := by
    rw [events_concat, ← h.events, record]
    split <;> exact (List.append_nil _).symm

/-- What a run does with the machine is what its ticks do, one after the other. -/
theorem Follows.goOn (n : Nat) (h : r.Follows start actions) :
    (goOn limits n r).1.Follows start (actions ++ (begunFrom limits n r).flatMap turn) := by
  induction n generalizing r actions with
  | zero => rwa [begunFrom, List.flatMap_nil, List.append_nil]
  | succ n ih =>
    have hobserve := h.prepare.observe
    rcases r.running_or_ending with hrunning | ⟨ending, hending⟩
    · have hturn : r.turn = r.arriving ++ [.step] ++ [.tick] := by
        rw [turn, Ending.behind?_eq_none_iff.2 hrunning, List.append_assoc]
        rfl
      have hpassed : (r.passed limits).Follows start (actions ++ r.turn) := by
        rw [hturn, ← List.append_assoc, ← List.append_assoc]
        exact hobserve.advance limits
      rw [goOn_of_running hrunning, begunFrom_of_running hrunning, List.flatMap_cons,
        ← List.append_assoc]
      exact ih hpassed
    · have hturn : r.turn = r.arriving ++ [.step] := by
        rw [turn, hending]
      rw [goOn_of_ending hending, begunFrom_of_ending hending, List.flatMap_singleton, hturn,
        ← List.append_assoc]
      exact hobserve

/-- Nothing in the events tells of a halt. -/
def Unhalted (r : Run) : Prop := ∀ address, .halt address ∉ r.events.toList

/-- What the events tell of how the run ended. -/
def Tells (r : Run) : Ending → Prop
  | .stopped .halted => r.machine.Halts ∧ ∃ before, (∀ address, .halt address ∉ before) ∧
      r.events.toList = before ++ [.halt r.machine.instruction.index]
  | _ => r.Unhalted

theorem Unhalted.prepare (h : r.Unhalted) : r.prepare.Unhalted := by
  intro address
  rw [prepare_events]
  exact h address

theorem Unhalted.observe {s : Step} (h : r.Unhalted)
    (hs : ∀ address, .halt address ∉ s.event.toList) : (r.observe s).Unhalted := by
  intro address
  change _ ∉ (r.events ++ s.event.toList).toList
  rw [Array.toList_appendList, List.mem_append, not_or]
  exact ⟨h address, hs address⟩

theorem Unhalted.advance (h : r.Unhalted) : (r.record limits).advance.Unhalted := by
  unfold record
  split
  · exact h
  · exact h

/-- One tick halts the run exactly if it tells of a halt. -/
theorem next_tells (limits : Limits) (hrunning : r.Unhalted) :
    match (r.next limits).2 with
    | none => (r.next limits).1.Unhalted
    | some ending => (r.next limits).1.Tells ending := by
  -- what comes before the step, a delivery and a count, has no event
  rcases halts_or r.prepare.machine with hhalts | ⟨hresult, hevent⟩
  · have hnext : r.next limits =
        (r.prepare.observe r.prepare.machine.step, some (.stopped .halted)) := by
      simp only [next, hhalts.step]
    rw [hnext]
    refine ⟨?_, r.prepare.events.toList, hrunning.prepare, ?_⟩
    · rw [hhalts.step]
      exact hhalts
    · rw [hhalts.step]
      exact Array.toList_appendList
  · have hquiet := hrunning.prepare.observe hevent
    cases hstep : r.prepare.machine.step.result with
    | error f =>
      cases f <;> simp only [next, hstep] <;> exact hquiet
    | ok status =>
      cases status with
      | halted => exact absurd hstep hresult
      | running =>
        simp only [next, hstep]
        exact hquiet.advance

theorem goOn_tells (n : Nat) (hrunning : r.Unhalted) :
    (goOn limits n r).1.Tells (goOn limits n r).2 := by
  -- induction on the ticks that are left; a run that is to go on has told of no halt
  induction n generalizing r with
  | zero => exact hrunning
  | succ n ih =>
    have htells := next_tells limits hrunning
    rw [goOn]
    cases hnext : r.next limits with
    | mk r' ending =>
      rw [hnext] at htells
      cases ending with
      | some ending => exact htells
      | none => exact ih htells

/-- A run is a session with a fresh machine, and its last event tells if it has halted. -/
theorem exists_session (image : Image) (arrivals : List Arrival) (limits : Limits) :
    (∃ actions, ((Run.start image arrivals).complete limits).1.Follows (.ofImage image) actions) ∧
      ((Run.start image arrivals).complete limits).1.Tells
        ((Run.start image arrivals).complete limits).2 :=
  ⟨⟨_, (follows_start image arrivals).goOn _⟩, goOn_tells _ nofun⟩

/-- The events are a record of the run: the changes that they tell lead from the image to the last
memory, the symbols that they tell are the output, and they tell of a halt exactly if the run
halted, once and last, with the index of the cell that was fetched. -/
structure Recorded (image : Image) (r : Run) (ending : Ending) : Prop where
  memory : (ofImage image).replay r.events.toList =
    .ok { ofImage image with memory := r.machine.memory }
  untouched : Overwrites r.events.toList image.memory r.machine.memory
  output : r.machine.output.toList = r.events.toList.filterMap Event.output?
  halted : ending = .stopped .halted ↔ ∃ address, .halt address ∈ r.events.toList
  last : ending = .stopped .halted → ∃ before address c,
    r.events.toList = before ++ [.halt c.index] ∧ (∀ i, .halt i ∉ before) ∧
      r.machine.programCounter = address + 1 ∧ r.machine.memory[address.toNat]? = some c ∧
        c.opcode = .halt

theorem Tells.halted_iff {ending : Ending} (h : r.Tells ending) :
    ending = .stopped .halted ↔ ∃ address, .halt address ∈ r.events.toList := by
  have hquiet (hrunning : r.Unhalted) (hending : ending ≠ .stopped .halted) :
      ending = .stopped .halted ↔ ∃ address, .halt address ∈ r.events.toList := by
    refine ⟨fun hhalted => absurd hhalted hending, ?_⟩
    rintro ⟨address, hmem⟩
    exact absurd hmem (hrunning address)
  cases ending with
  | failed f => exact hquiet h nofun
  | stopped reason =>
    cases reason with
    | endOfInput => exact hquiet h nofun
    | tickLimit => exact hquiet h nofun
    | halted =>
      obtain ⟨-, before, -, hevents⟩ := h
      refine ⟨fun _ => ⟨r.machine.instruction.index, ?_⟩, fun _ => rfl⟩
      rw [hevents]
      exact List.mem_append_right _ (List.mem_singleton.2 rfl)

theorem recorded_of_follows {image : Image} {ending : Ending}
    (h : r.Follows (ofImage image) actions) (htells : r.Tells ending) :
    Recorded image r ending where
  memory := by
    rw [h.events, h.machine]
    exact replay_events (ofImage image) actions
  untouched := by
    rw [h.events, h.machine]
    exact overwrites_after (ofImage image) actions
  output := by
    rw [h.events, h.machine]
    exact output_after (ofImage image) actions
  halted := htells.halted_iff
  last := by
    rintro rfl
    obtain ⟨hhalts, before, hbefore, hevents⟩ := htells
    have hphase : ((ofImage image).after actions).phase ≠ .fetch := by
      rw [← h.machine, hhalts.phase]
      decide
    obtain ⟨address, -, hlatched⟩ := exists_fetchedFrom rfl actions hphase
    rw [← h.machine] at hlatched
    exact ⟨before, address, _, hevents, hbefore, hlatched.programCounter, hlatched.cell,
      hhalts.opcode⟩

/-- The text of a report is that of the symbols one after the other. -/
theorem outputText_eq (m : Machine) :
    m.outputText = String.join (m.output.toList.map Word.symbolText) := by
  rw [outputText, String.join, List.foldl_map, Array.foldl_toList]

/-- The events of a run are a complete and faithful record of it, whether it ends in a report or in
a fault, and the output of a report is that of its events. -/
theorem events_record_run (image : Image) (arrivals : List Arrival) (limits : Limits) :
    let (r, ending) := (Run.start image arrivals).complete limits
    Recorded image r ending ∧ (simulate image arrivals limits).map Report.output =
      match ending with
      | .stopped _ =>
        .ok (String.join ((r.events.toList.filterMap Event.output?).map Word.symbolText))
      | .failed f => .error f := by
  obtain ⟨⟨actions, hfollows⟩, htells⟩ := exists_session image arrivals limits
  unfold simulate
  generalize (Run.start image arrivals).complete limits = c at hfollows htells
  obtain ⟨r, ending⟩ := c
  have hrecorded : Recorded image r ending := recorded_of_follows hfollows htells
  refine ⟨hrecorded, ?_⟩
  cases ending with
  | failed f => rfl
  | stopped reason =>
    change Except.ok r.machine.outputText = _
    rw [outputText_eq, hrecorded.output]

end Run

end Accumulator
