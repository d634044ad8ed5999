import Accumulator.Machine.Step

/-!
What the machine does in several moves, one after the other. A move is a
micro-step, or later a whole instruction. The moves stop at the first fault and
at a halt, and the events are told in order. Both levels of the machine are
iterations of the same kind, so they can be compared move by move.
-/

namespace Accumulator

/-- What several moves come to when none of them fails. -/
structure Outcome where
  machine : Machine
  status : Status := .running
  events : List Event := []
  deriving DecidableEq, Repr

def Outcome.after (events : List Event) (o : Outcome) : Outcome :=
  { o with events := events ++ o.events }

/-- Goes on from an outcome, unless it is a halt. -/
def Outcome.andThen (o : Outcome) (move : Machine → Except Fault Outcome) :
    Except Fault Outcome :=
  match o.status with
  | .running => Outcome.after o.events <$> move o.machine
  | .halted => .ok o

def Step.outcome (s : Step) : Except Fault Outcome :=
  match s.result with
  | .ok status => .ok ⟨s.machine, status, s.event.toList⟩
  | .error f => .error f

namespace Machine

/-- So many moves, or fewer if one of them fails or halts. -/
def iterate (move : Machine → Except Fault Outcome) : Nat → Machine → Except Fault Outcome
  | 0, m => .ok { machine := m }
  | n + 1, m => move m >>= fun o => o.andThen (iterate move n)

def steps (n : Nat) (m : Machine) : Except Fault Outcome :=
  iterate (fun m => m.step.outcome) n m

end Machine

theorem Outcome.after_after (es ds : List Event) (o : Outcome) :
    (o.after ds).after es = o.after (es ++ ds) := by
  simp only [Outcome.after, List.append_assoc]

theorem Outcome.andThen_of_running {o : Outcome} (hrunning : o.status = .running)
    (move : Machine → Except Fault Outcome) :
    o.andThen move = Outcome.after o.events <$> move o.machine := by
  simp only [Outcome.andThen, hrunning]

theorem Outcome.andThen_of_halted {o : Outcome} (hhalted : o.status = .halted)
    (move : Machine → Except Fault Outcome) : o.andThen move = .ok o := by
  simp only [Outcome.andThen, hhalted]

/-- Going on twice is going on with what the second move leads to. -/
theorem Outcome.andThen_assoc (o : Outcome) (first second : Machine → Except Fault Outcome) :
    (o.andThen first >>= fun p => p.andThen second) =
      o.andThen fun m => first m >>= fun p => p.andThen second := by
  cases hstatus : o.status with
  | halted =>
    rw [Outcome.andThen_of_halted hstatus, Outcome.andThen_of_halted hstatus]
    exact Outcome.andThen_of_halted hstatus second
  | running =>
    rw [Outcome.andThen_of_running hstatus, Outcome.andThen_of_running hstatus]
    cases hfirst : first o.machine with
    | error f => rfl
    | ok p =>
      change (p.after o.events).andThen second = Outcome.after o.events <$> p.andThen second
      have hafter : (p.after o.events).status = p.status := rfl
      cases hp : p.status with
      | halted =>
        rw [Outcome.andThen_of_halted hp, Outcome.andThen_of_halted (hafter.trans hp)]
        rfl
      | running =>
        rw [Outcome.andThen_of_running hp, Outcome.andThen_of_running (hafter.trans hp)]
        change Outcome.after (o.events ++ p.events) <$> second p.machine =
          Outcome.after o.events <$> Outcome.after p.events <$> second p.machine
        cases second p.machine with
        | error f => rfl
        | ok q => exact congrArg Except.ok (Outcome.after_after o.events p.events q).symm

namespace Machine

variable {m m' : Machine} {move : Machine → Except Fault Outcome}

theorem iterate_one (move : Machine → Except Fault Outcome) (m : Machine) :
    iterate move 1 m = move m := by
  cases hmove : move m with
  | error f => simp only [iterate, hmove]; rfl
  | ok o =>
    cases hstatus : o.status with
    | halted =>
      simp only [iterate, hmove]
      exact Outcome.andThen_of_halted hstatus (iterate move 0)
    | running =>
      simp only [iterate, hmove]
      change o.andThen (iterate move 0) = .ok o
      rw [Outcome.andThen_of_running hstatus]
      change Except.ok (Outcome.after o.events { machine := o.machine }) = .ok o
      rw [Outcome.after, List.append_nil, ← hstatus]

theorem iterate_add (move : Machine → Except Fault Outcome) (a b : Nat) (m : Machine) :
    iterate move (a + b) m = iterate move a m >>= fun o => o.andThen (iterate move b) := by
  induction a generalizing m with
  | zero =>
    rw [Nat.zero_add]
    change iterate move b m = Outcome.after [] <$> iterate move b m
    cases iterate move b m with
    | error f => rfl
    | ok o => rfl
  | succ a ih =>
    rw [Nat.succ_add, iterate, iterate]
    cases move m with
    | error f => rfl
    | ok o =>
      -- the moves behind the first are split by induction and put together again by associativity
      have hrest : iterate move (a + b) =
          fun m => iterate move a m >>= fun p => p.andThen (iterate move b) := funext ih
      change o.andThen (iterate move (a + b)) =
        o.andThen (iterate move a) >>= fun p => p.andThen (iterate move b)
      rw [hrest, Outcome.andThen_assoc]

/-- A first micro-step that goes on without an event. -/
theorem steps_succ_of_running {n : Nat} (hstep : m.step = m'.proceed m'.phase none) :
    m.steps (n + 1) = m'.steps n := by
  simp only [steps, iterate, hstep]
  change Outcome.after [] <$> iterate (fun m => m.step.outcome) n m' = _
  cases iterate (fun m => m.step.outcome) n m' with
  | error f => rfl
  | ok o => rfl

theorem steps_one (m : Machine) : m.steps 1 = m.step.outcome := iterate_one _ m

theorem steps_succ_of_error {n : Nat} {f : Fault} (hstep : m.step.result = .error f) :
    m.steps (n + 1) = .error f := by
  simp only [steps, iterate, Step.outcome, hstep]
  rfl

theorem steps_add (a b : Nat) (m : Machine) :
    m.steps (a + b) = m.steps a >>= fun o => o.andThen (steps b) :=
  iterate_add _ a b m

theorem steps_add_of_running {a b : Nat} {events : List Event}
    (hsteps : m.steps a = .ok { machine := m', events }) :
    m.steps (a + b) = Outcome.after events <$> m'.steps b := by
  rw [steps_add, hsteps]
  rfl

end Machine

end Accumulator
