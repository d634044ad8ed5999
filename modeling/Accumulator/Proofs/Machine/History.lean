import Accumulator.Proofs.Machine.Session
import Mathlib.Data.List.Induction

/-!
The history of a session: the events it has caused, and how far back something
began. A session grows at its end, so both are followed from one action to the
next one.
-/

namespace Accumulator.Machine

variable {m : Machine} {actions : List Action}

def events (m : Machine) (actions : List Action) : List Event :=
  (m.responses actions).filterMap Response.event

/-- The session took a step from a state in which something began, and in every state behind
that step something holds. -/
def Since (m : Machine) (began holds : Machine → Prop) (actions : List Action) : Prop :=
  ∃ before since, actions = before ++ .step :: since ∧ began (m.after before) ∧
    ∀ early, early <+: since → holds (m.after (before ++ .step :: early))

theorem after_append (m : Machine) (first second : List Action) :
    m.after (first ++ second) = (m.after first).after second := by
  simp only [after, List.foldl_append]

theorem after_concat (m : Machine) (actions : List Action) (a : Action) :
    m.after (actions ++ [a]) = ((m.after actions).perform a).machine :=
  after_append m actions [a]

theorem responses_append (m : Machine) (first second : List Action) :
    m.responses (first ++ second) = m.responses first ++ (m.after first).responses second := by
  induction first generalizing m with
  | nil => rfl
  | cons a first ih => exact congrArg _ (ih (m.perform a).machine)

theorem events_concat (m : Machine) (actions : List Action) (a : Action) :
    m.events (actions ++ [a]) = m.events actions ++ ((m.after actions).perform a).event.toList := by
  unfold events
  rw [responses_append, List.filterMap_append]
  cases hevent : ((m.after actions).perform a).event <;> simp [responses, hevent]

section Since

variable {began holds : Machine → Prop}

theorem since_step (hbegan : began (m.after actions))
    (hholds : holds (m.after (actions ++ [.step]))) : m.Since began holds (actions ++ [.step]) := by
  refine ⟨actions, [], rfl, hbegan, ?_⟩
  intro early hearly
  rw [List.prefix_nil.1 hearly]
  exact hholds

theorem Since.concat {a : Action} (h : m.Since began holds actions)
    (hholds : holds (m.after (actions ++ [a]))) : m.Since began holds (actions ++ [a]) := by
  obtain ⟨before, since, rfl, hbegan, hsince⟩ := h
  refine ⟨before, since ++ [a], by simp, hbegan, ?_⟩
  intro early hearly
  rcases List.prefix_concat_iff.1 hearly with rfl | hearly
  · simpa using hholds
  · exact hsince early hearly

end Since

end Accumulator.Machine
