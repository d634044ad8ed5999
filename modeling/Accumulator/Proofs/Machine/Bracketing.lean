import Accumulator.Proofs.Machine.History
import Accumulator.Proofs.Machine.MicroStep

/-!
Interrupts over whole sessions. The handler is entered and left in turns,
whatever it does and whenever symbols arrive: while it runs it is not entered
again, and only `RET` leaves it. What the return needs is saved when the handler
is entered and is not touched before it is left, so the program goes on where it
was interrupted.
-/

namespace Accumulator

/-- Whether the event begins or ends an interrupt. -/
def Event.isBracket : Event → Bool
  | .interruptEnter _ _ | .interruptExit _ => true
  | _ => false

/-- The events of interrupts that came one after the other. Each has a return address and the
address of its handler; the ongoing one has not been left yet. -/
def brackets (closed : List (Word × Word)) (ongoing : Option (Word × Word)) : List Event :=
  (closed.flatMap fun (r, v) => [.interruptEnter r v, .interruptExit r]) ++
    ongoing.toList.map fun (r, v) => .interruptEnter r v

theorem brackets_enter (closed : List (Word × Word)) (r v : Word) :
    brackets closed none ++ [.interruptEnter r v] = brackets closed (some (r, v)) := by
  simp [brackets]

theorem brackets_exit (closed : List (Word × Word)) (r v : Word) :
    brackets closed (some (r, v)) ++ [.interruptExit r] = brackets (closed ++ [(r, v)]) none := by
  simp [brackets]

namespace Machine

/-- The action enters the handler at `v` instead of fetching from `r`. It changes the program
counter, what is saved and the interrupted flag, and nothing else. -/
structure Enters (m : Machine) (a : Action) (r v : Word) : Prop where
  step : a = .step
  phase : m.phase = .fetch
  pending : m.pending.isSome = true
  idle : m.interrupted = false
  vector : m.vector = some v
  returnAddress : r = m.programCounter
  performed : m.perform a =
    { machine := { m with
        programCounter := v
        savedProgramCounter := r
        savedAccumulator := m.accumulator
        interrupted := true }
      result := .ok .running
      event := some (.interruptEnter r v) }

/-- The action leaves the handler. -/
structure Exits (m : Machine) (a : Action) : Prop where
  step : a = .step
  phase : m.phase = .decode
  ret : m.instruction.opcode = .ret
  busy : m.interrupted = true
  performed : m.perform a =
    { machine := { m with
        programCounter := m.savedProgramCounter
        accumulator := m.savedAccumulator
        zero := m.savedAccumulator == 0
        interrupted := false
        phase := .fetch }
      result := .ok .running
      event := some (.interruptExit m.savedProgramCounter) }

/-- The step neither begins nor ends an interrupt and leaves alone what is saved. -/
structure Passes (m : Machine) (s : Step) : Prop where
  event : s.event.toList.filter Event.isBracket = []
  interrupted : s.machine.interrupted = m.interrupted
  savedProgramCounter : s.machine.savedProgramCounter = m.savedProgramCounter
  savedAccumulator : s.machine.savedAccumulator = m.savedAccumulator

theorem perform_cases (m : Machine) (a : Action) :
    (∃ v, m.Enters a m.programCounter v) ∨ m.Exits a ∨ m.Passes (m.perform a) := by
  cases a with
  | tick => exact .inr (.inr ⟨rfl, rfl, rfl, rfl⟩)
  | input symbol => exact .inr (.inr ⟨rfl, rfl, rfl, rfl⟩)
  | step =>
    have hstep : m.MicroStep (m.perform .step) := m.microStep
    generalize hperform : m.perform .step = s at hstep ⊢
    cases hstep with
    | enter hphase hpending hidle hvector =>
      exact .inl ⟨_, rfl, hphase, hpending, hidle, hvector, rfl, hperform⟩
    | exit hphase hret hinterrupted =>
      exact .inr (.inl ⟨rfl, hphase, hret, hinterrupted, hperform⟩)
    | _ => exact .inr (.inr ⟨rfl, rfl, rfl, rfl⟩)

variable {m start : Machine} {actions : List Action} {a : Action} {r v : Word}

theorem enters_of_event (hevent : (m.perform a).event = some (.interruptEnter r v)) :
    m.Enters a r v := by
  rcases m.perform_cases a with ⟨v', henters⟩ | hexits | hpasses
  · rw [henters.performed] at hevent
    cases hevent
    exact henters
  · rw [hexits.performed] at hevent
    cases hevent
  · have hnone := hpasses.event
    rw [hevent] at hnone
    cases hnone

theorem exits_of_event (hevent : (m.perform a).event = some (.interruptExit r)) :
    m.Exits a ∧ r = m.savedProgramCounter := by
  rcases m.perform_cases a with ⟨v', henters⟩ | hexits | hpasses
  · rw [henters.performed] at hevent
    cases hevent
  · have hexit := hevent
    rw [hexits.performed] at hexit
    cases hexit
    exact ⟨hexits, rfl⟩
  · have hnone := hpasses.event
    rw [hevent] at hnone
    cases hnone

/-- The handler was entered from a machine and has been running since. -/
def Handles (start : Machine) (actions : List Action) (entry : Machine) (r v : Word) : Prop :=
  start.Since (fun n => n = entry ∧ n.Enters .step r v) (fun n => n.interrupted = true) actions

/-- What a session has to show of interrupts, and what the machine has saved of the ongoing one. -/
structure Handling (start : Machine) (actions : List Action) (closed : List (Word × Word))
    (ongoing : Option (Word × Word)) : Prop where
  events : (start.events actions).filter Event.isBracket = brackets closed ongoing
  interrupted : (start.after actions).interrupted = ongoing.isSome
  saved : ∀ r v, ongoing = some (r, v) → ∃ entry, start.Handles actions entry r v ∧
    (start.after actions).savedProgramCounter = r ∧
      (start.after actions).savedAccumulator = entry.accumulator

theorem handling_nil (hidle : start.interrupted = false) : start.Handling [] [] none where
  events := rfl
  interrupted := hidle
  saved := by
    rintro r v ⟨⟩

theorem Handling.enter {closed : List (Word × Word)} (h : start.Handling actions closed none)
    (henters : (start.after actions).Enters a r v) :
    start.Handling (actions ++ [a]) closed (some (r, v)) where
  events := by
    rw [events_concat, List.filter_append, h.events, henters.performed]
    exact brackets_enter closed r v
  interrupted := by
    rw [after_concat, henters.performed]
    rfl
  saved := by
    rintro r' v' ⟨⟩
    have hafter : (start.after (actions ++ [a])).interrupted = true := by
      rw [after_concat, henters.performed]
    obtain rfl := henters.step
    refine ⟨start.after actions, since_step ⟨rfl, henters⟩ hafter, ?_, ?_⟩
    · rw [after_concat, henters.performed]
    · rw [after_concat, henters.performed]

theorem Handling.exit {closed : List (Word × Word)}
    (h : start.Handling actions closed (some (r, v))) (hexits : (start.after actions).Exits a) :
    start.Handling (actions ++ [a]) (closed ++ [(r, v)]) none where
  events := by
    obtain ⟨entry, -, hsaved, -⟩ := h.saved r v rfl
    rw [events_concat, List.filter_append, h.events, hexits.performed, hsaved]
    exact brackets_exit closed r v
  interrupted := by
    rw [after_concat, hexits.performed]
    rfl
  saved := by
    rintro r' v' ⟨⟩

theorem Handling.pass {closed : List (Word × Word)} {ongoing : Option (Word × Word)}
    (h : start.Handling actions closed ongoing)
    (hpasses : (start.after actions).Passes ((start.after actions).perform a)) :
    start.Handling (actions ++ [a]) closed ongoing where
  events := by
    rw [events_concat, List.filter_append, h.events, hpasses.event, List.append_nil]
  interrupted := by
    rw [after_concat, hpasses.interrupted, h.interrupted]
  saved := by
    rintro r v rfl
    obtain ⟨entry, hentry, hcounter, haccumulator⟩ := h.saved r v rfl
    have hafter : (start.after (actions ++ [a])).interrupted = true := by
      rw [after_concat, hpasses.interrupted, h.interrupted]
      rfl
    refine ⟨entry, hentry.concat hafter, ?_, ?_⟩
    · rw [after_concat, hpasses.savedProgramCounter, hcounter]
    · rw [after_concat, hpasses.savedAccumulator, haccumulator]

/-- An action enters the handler only if no interrupt is ongoing and leaves it only if one is. -/
theorem exists_handling (hidle : start.interrupted = false) (actions : List Action) :
    ∃ closed ongoing, start.Handling actions closed ongoing := by
  induction actions using List.reverseRecOn with
  | nil => exact ⟨[], none, handling_nil hidle⟩
  | append_singleton actions a ih =>
    -- an enter needs the interrupted flag clear and an exit needs it set, and the flag tells
    -- whether an interrupt is ongoing
    obtain ⟨closed, ongoing, h⟩ := ih
    rcases (start.after actions).perform_cases a with ⟨v, henters⟩ | hexits | hpasses
    · cases ongoing with
      | none => exact ⟨closed, _, h.enter henters⟩
      | some _ =>
        have hbusy := h.interrupted
        rw [henters.idle] at hbusy
        cases hbusy
    · cases ongoing with
      | none =>
        have hnone := h.interrupted
        rw [hexits.busy] at hnone
        cases hnone
      | some _ => exact ⟨_, none, h.exit hexits⟩
    · exact ⟨closed, ongoing, h.pass hpasses⟩

/-- Only steps change the phase and the program counter. -/
theorem after_of_step_notMem {later : List Action} (hlater : .step ∉ later) (m : Machine) :
    (m.after later).phase = m.phase ∧ (m.after later).programCounter = m.programCounter := by
  induction later generalizing m with
  | nil => exact ⟨rfl, rfl⟩
  | cons a later ih =>
    rw [List.mem_cons, not_or] at hlater
    have hkeep : (m.perform a).machine.phase = m.phase ∧
        (m.perform a).machine.programCounter = m.programCounter := by
      cases a with
      | step => exact absurd rfl hlater.1
      | tick => exact ⟨rfl, rfl⟩
      | input symbol => exact ⟨rfl, rfl⟩
    obtain ⟨hphase, hcounter⟩ := ih hlater.2 (m.perform a).machine
    exact ⟨hphase.trans hkeep.1, hcounter.trans hkeep.2⟩

/-- The action returns from the interrupt that was entered last, and nothing but a fetch or the
next interrupt can follow, from the address where the program was interrupted. -/
structure Resumes (start : Machine) (actions : List Action) (a : Action) (r : Word) : Prop where
  exits : (start.after actions).Exits a
  entered : ∃ entry v, start.Handles actions entry r v ∧ r = entry.programCounter ∧
    (start.after (actions ++ [a])).accumulator = entry.accumulator ∧
      (start.after (actions ++ [a])).zero = (entry.accumulator == 0)
  next : ∀ later, .step ∉ later →
    (start.after (actions ++ a :: later)).phase = .fetch ∧
      (start.after (actions ++ a :: later)).programCounter = r

/-- What a session shows of interrupts. Enters and exits alternate, an enter first, and each exit
has the return address of its enter; the machine is interrupted exactly behind an enter whose exit
has not come yet. -/
structure Bracketed (start : Machine) (actions : List Action) : Prop where
  alternate : ∃ closed ongoing, (start.events actions).filter Event.isBracket =
    brackets closed ongoing ∧ (start.after actions).interrupted = ongoing.isSome
  enter : ∀ a r v, ((start.after actions).perform a).event = some (.interruptEnter r v) →
    (start.after actions).Enters a r v
  exit : ∀ a r, ((start.after actions).perform a).event = some (.interruptExit r) →
    start.Resumes actions a r

theorem resumes_of_event (hidle : start.interrupted = false)
    (hevent : ((start.after actions).perform a).event = some (.interruptExit r)) :
    start.Resumes actions a r := by
  obtain ⟨hexits, rfl⟩ := exits_of_event hevent
  obtain ⟨closed, ongoing, h⟩ := exists_handling hidle actions
  have hbusy := h.interrupted
  rw [hexits.busy] at hbusy
  obtain ⟨⟨r, v⟩, rfl⟩ := Option.isSome_iff_exists.1 hbusy.symm
  obtain ⟨entry, hentry, hcounter, haccumulator⟩ := h.saved r v rfl
  refine ⟨hexits, ⟨entry, v, ?_, ?_, ?_, ?_⟩, ?_⟩
  · rw [hcounter]
    exact hentry
  · obtain ⟨before, since, -, ⟨rfl, henters⟩, -⟩ := hentry
    rw [hcounter, henters.returnAddress]
  · rw [after_concat, hexits.performed]
    exact haccumulator
  · rw [after_concat, hexits.performed, haccumulator]
  · intro later hlater
    have hquiet := after_of_step_notMem hlater ((start.after actions).perform a).machine
    rw [hexits.performed] at hquiet
    rw [← List.singleton_append, ← List.append_assoc, after_append, after_concat,
      hexits.performed]
    exact hquiet

/-- Whatever an image holds, and whatever a driver does with its machine, interrupts are bracketed:
the handler is entered and left in turns, it is entered only between two instructions and for a
pending symbol, and it returns to where the program was, with the accumulator as it was and the
zero flag that follows it. -/
theorem interrupts_bracketed (image : Image) (actions : List Action) :
    (ofImage image).Bracketed actions where
  alternate := by
    have hidle : (ofImage image).interrupted = false := rfl
    obtain ⟨closed, ongoing, h⟩ := exists_handling hidle actions
    exact ⟨closed, ongoing, h.events, h.interrupted⟩
  enter := by
    intro a r v hevent
    exact enters_of_event hevent
  exit := by
    intro a r hevent
    exact resumes_of_event rfl hevent

/-- A program that waits in a loop, with a handler that reads a symbol. -/
def waiting : Image where
  vector := some 1
  memory := #[⟨0, .jump, some 0⟩, ⟨1, .input, none⟩, ⟨2, .ret, none⟩]

/-- The symbols that arrive in the handler do not interrupt it. The last of them interrupts the
program again as soon as the handler has returned. -/
def storm : List Action :=
  [.input 65, .step, .step, .input 66, .step, .tick, .input 67, .step]

theorem interrupts_bracketed_waiting :
    (ofImage waiting).Resumes storm .step 0 ∧
      ((ofImage waiting).after (storm ++ [.step])).Enters .step 0 1 := by
  constructor
  · exact (interrupts_bracketed waiting storm).exit .step 0 (by decide)
  · have hevent : (((ofImage waiting).after (storm ++ [.step])).perform .step).event =
        some (.interruptEnter 0 1) := by decide
    exact (interrupts_bracketed waiting _).enter .step 0 1 hevent

end Machine

end Accumulator
