import Accumulator.Proofs.Machine.History
import Accumulator.Proofs.Machine.MicroStep

/-!
The events of a session as a record of it. Repeating the changes of memory that
the events tell leads from the first memory to the last, and the symbols that
were put out are those of the events. Hence memory keeps its size, and a cell
its index and its opcode; a value changes only where an event says so.
-/

namespace Accumulator

def Event.output? : Event → Option Word
  | .output symbol => some symbol
  | _ => none

/-- The second memory came from the first by the changes that the events tell. -/
structure Overwrites (events : List Event) (before after : Array Cell) : Prop where
  size : after.size = before.size
  cell : ∀ i d, after[i]? = some d → ∃ c, before[i]? = some c ∧
    d.index = c.index ∧ d.opcode = c.opcode ∧ (c.value.isSome = true → d.value.isSome = true) ∧
      ((∀ address w, .memoryChange address w ∈ events → address.toNat ≠ i) → d = c)

theorem overwrites_self (events : List Event) (memory : Array Cell) :
    Overwrites events memory memory where
  size := rfl
  cell := by
    intro i d hd
    exact ⟨d, hd, rfl, rfl, id, fun _ => rfl⟩

theorem Overwrites.trans {first second : List Event} {a b c : Array Cell}
    (hab : Overwrites first a b) (hbc : Overwrites second b c) :
    Overwrites (first ++ second) a c where
  size := hbc.size.trans hab.size
  cell := by
    intro i z hz
    obtain ⟨y, hy, hindex, hopcode, hvalue, hsame⟩ := hbc.cell i z hz
    obtain ⟨x, hx, hindex', hopcode', hvalue', hsame'⟩ := hab.cell i y hy
    refine ⟨x, hx, hindex.trans hindex', hopcode.trans hopcode', hvalue ∘ hvalue', ?_⟩
    intro hnone
    have hyx : y = x := hsame' fun address w he => hnone address w (List.mem_append_left _ he)
    have hzy : z = y := hsame fun address w he => hnone address w (List.mem_append_right _ he)
    exact hzy.trans hyx

namespace Machine

/-- Repeats the change of memory that the event tells, if it tells one. -/
def redo (m : Machine) : Event → Except Fault Machine
  | .memoryChange address w => (fun memory => { m with memory }) <$> m.written address w
  | _ => .ok m

def replay (m : Machine) (events : List Event) : Except Fault Machine := events.foldlM redo m

variable {m n : Machine}

theorem overwrites_redo {e : Event} (h : m.redo e = .ok n) : Overwrites [e] m.memory n.memory := by
  cases e with
  | memoryChange address w =>
    obtain ⟨memory, hwritten, rfl⟩ := Checked.map_eq_ok_iff.1 h
    obtain ⟨-, rfl⟩ := written_eq_ok_iff.1 hwritten
    refine ⟨Array.size_modify, ?_⟩
    intro i d hd
    rw [Array.getElem?_modify] at hd
    split at hd
    next haddress =>
      obtain ⟨c, hc, rfl⟩ := Option.map_eq_some_iff.1 hd
      refine ⟨c, hc, rfl, rfl, fun _ => rfl, ?_⟩
      intro hnone
      exact absurd haddress (hnone address w (List.mem_singleton.2 rfl))
    next => exact ⟨d, hd, rfl, rfl, id, fun _ => rfl⟩
  | _ =>
    cases h
    exact overwrites_self _ _

/-- What a replay does to memory, one event after the other. -/
theorem overwrites_replay {events : List Event} (h : m.replay events = .ok n) :
    Overwrites events m.memory n.memory := by
  induction events generalizing m with
  | nil =>
    cases h
    exact overwrites_self _ _
  | cons e events ih =>
    rw [replay, List.foldlM_cons] at h
    obtain ⟨k, hredo, hrest⟩ := Checked.bind_eq_ok_iff.1 h
    exact (overwrites_redo hredo).trans (ih hrest)

/-- The event of a micro-step tells what the step does to memory. The machine on which the event
is repeated need not have the registers of the one that caused it. -/
theorem MicroStep.replay {s : Step} (h : m.MicroStep s) (hmemory : n.memory = m.memory) :
    n.replay s.event.toList = .ok { n with memory := s.machine.memory } := by
  cases h with
  | store _ _ hwritten =>
    have hsame : n.written m.dataAddress m.accumulator = m.written m.dataAddress m.accumulator := by
      unfold written
      rw [hmemory]
    change (fun memory => { n with memory }) <$> n.written m.dataAddress m.accumulator >>= pure = _
    rw [bind_pure, hsame, hwritten]
    rfl
  | _ => exact congrArg (fun memory => Except.ok { n with memory }) hmemory

theorem replay_perform (a : Action) (hmemory : n.memory = m.memory) :
    n.replay (m.perform a).event.toList =
      .ok { n with memory := (m.perform a).machine.memory } := by
  cases a with
  | step => exact m.microStep.replay hmemory
  | tick | input => exact congrArg (fun memory => Except.ok { n with memory }) hmemory

/-- The events of a session lead from its first memory to its last. -/
theorem replay_events (m : Machine) (actions : List Action) :
    m.replay (m.events actions) = .ok { m with memory := (m.after actions).memory } := by
  induction actions using List.reverseRecOn with
  | nil => rfl
  | append_singleton actions a ih =>
    rw [events_concat, replay, List.foldlM_append, ← replay, ih, after_concat]
    exact replay_perform a rfl

theorem overwrites_after (m : Machine) (actions : List Action) :
    Overwrites (m.events actions) m.memory (m.after actions).memory :=
  overwrites_replay (n := { m with memory := (m.after actions).memory }) (replay_events m actions)

/-- The event of a micro-step tells what the step puts out. -/
theorem MicroStep.output_eq {s : Step} (h : m.MicroStep s) :
    s.machine.output.toList = m.output.toList ++ s.event.toList.filterMap Event.output? := by
  cases h with
  | output => exact Array.toList_push
  | _ => exact (List.append_nil _).symm

theorem output_perform (m : Machine) (a : Action) :
    (m.perform a).machine.output.toList =
      m.output.toList ++ (m.perform a).event.toList.filterMap Event.output? := by
  cases a with
  | step => exact m.microStep.output_eq
  | tick | input => exact (List.append_nil _).symm

theorem output_after (m : Machine) (actions : List Action) :
    (m.after actions).output.toList =
      m.output.toList ++ (m.events actions).filterMap Event.output? := by
  induction actions using List.reverseRecOn with
  | nil => exact (List.append_nil _).symm
  | append_singleton actions a ih =>
    rw [after_concat, output_perform, ih, events_concat, List.filterMap_append, List.append_assoc]

end Machine

end Accumulator
