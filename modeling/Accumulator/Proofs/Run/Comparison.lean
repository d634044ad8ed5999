import Accumulator.Proofs.Machine.Surroundings
import Accumulator.Proofs.Run.Course

/-!
Two runs side by side. What a run shows is all of it but the surroundings of its
machine and the arrivals that are still to come. Runs that have shown the same
and that each tick keeps in step have the same result, whether that is a report
or a fault. A tick in which both machines are secluded shows the same in both.
-/

namespace Accumulator.Run

/-- All of a run but the surroundings of its machine and the arrivals to come. -/
def shown (r : Run) : Run := { r with machine := r.machine.facing none none, arrivals := [] }

/-- The run with other arrivals to come. -/
def awaiting (r : Run) (arrivals : List Arrival) : Run := { r with arrivals }

/-- A relation of runs that no tick before the limit breaks. Related runs have shown the same; in
the tick that they begin they come to the same, and they stay related if they go on. -/
structure InStep (limits : Limits) (Related : Run → Run → Prop) : Prop where
  shown {r r' : Run} : Related r r' → r.shown = r'.shown
  tick {r r' : Run} : Related r r' → r.machine.tick < limits.ticks →
    r.upcoming.result = r'.upcoming.result ∧ r.stepped.shown = r'.stepped.shown
  passed {r r' : Run} : Related r r' → r.machine.tick < limits.ticks →
    r.upcoming.result = .ok .running → Related (r.passed limits) (r'.passed limits)

/-- The runs come to the same end and have shown the same there. -/
def SameEnd (limits : Limits) (r r' : Run) : Prop :=
  (r.complete limits).1.shown = (r'.complete limits).1.shown ∧
    (r.complete limits).2 = (r'.complete limits).2

variable {limits : Limits} {start r r' : Run} {before : List Run} {ending : Ending}

section Complete

theorem complete_of_limit (hlimit : limits.ticks ≤ r.machine.tick) :
    r.complete limits = (r, .stopped .tickLimit) :=
  loops_iff.1 (.limit hlimit)

theorem complete_of_running (hbelow : r.machine.tick < limits.ticks)
    (hrunning : r.upcoming.result = .ok .running) :
    r.complete limits = (r.passed limits).complete limits :=
  loops_iff.1 (.turn hbelow (next_of_running hrunning) (loops_iff.2 rfl))

theorem complete_of_stop (hbelow : r.machine.tick < limits.ticks)
    (hending : Ending.behind? r.upcoming.result = some ending) :
    r.complete limits = (r.stepped, ending) :=
  loops_iff.1 (.stop hbelow (next_of_ending hending))

/-- What is to come of a run does not depend on where it is taken up. -/
theorem Through.complete_eq (h : Through limits start before r)
    (hlimit : r.machine.tick ≤ limits.ticks) : start.complete limits = r.complete limits := by
  induction h with
  | start => rfl
  | tick _ hrunning ih =>
    rw [passed_tick] at hlimit
    rw [ih (Nat.le_of_succ_le hlimit), complete_of_running hlimit hrunning]

/-- A run depends on its first arrivals only by what they make of it before the micro-step. -/
theorem complete_of_prepare (hprepare : r.prepare = r'.prepare)
    (hbelow : r.machine.tick < limits.ticks) : r.complete limits = r'.complete limits := by
  have htick (r : Run) : r.prepare.machine.tick = r.machine.tick := by
    obtain ⟨pending, arrivals, hprepare⟩ := r.prepare_eq
    rw [hprepare]
  have hbelow' : r'.machine.tick < limits.ticks := by rwa [← htick, ← hprepare, htick]
  have hupcoming : r.upcoming = r'.upcoming := congrArg (fun r => r.machine.step) hprepare
  have hstepped : r.stepped = r'.stepped := by rw [stepped, stepped, hprepare, hupcoming]
  rcases r.running_or_ending with hrunning | ⟨ending, hending⟩
  · have hpassed : r.passed limits = r'.passed limits := by rw [passed, passed, hstepped]
    rw [complete_of_running hbelow hrunning, hpassed]
    exact (complete_of_running hbelow' (hupcoming ▸ hrunning)).symm
  · rw [complete_of_stop hbelow hending, hstepped]
    exact (complete_of_stop hbelow' (hupcoming ▸ hending)).symm

end Complete

theorem tick_of_shown (h : r.shown = r'.shown) : r.machine.tick = r'.machine.tick :=
  (congrArg (fun r => r.machine.tick) h :)

theorem SameEnd.symm (h : SameEnd limits r r') : SameEnd limits r' r := ⟨h.1.symm, h.2.symm⟩

theorem SameEnd.trans {r'' : Run} (h : SameEnd limits r r') (h' : SameEnd limits r' r'') :
    SameEnd limits r r'' :=
  ⟨h.1.trans h'.1, h.2.trans h'.2⟩

theorem sameEnd_of_complete_eq (h : r.complete limits = r'.complete limits) :
    SameEnd limits r r' := by
  unfold SameEnd
  rw [h]
  exact ⟨rfl, rfl⟩

/-- Runs that take the same tick come to the same end if they do so behind it. -/
theorem SameEnd.tick (hbelow : r.machine.tick < limits.ticks)
    (hbelow' : r'.machine.tick < limits.ticks) (hresult : r.upcoming.result = r'.upcoming.result)
    (hstepped : r.stepped.shown = r'.stepped.shown)
    (hpassed : r.upcoming.result = .ok .running →
      SameEnd limits (r.passed limits) (r'.passed limits)) :
    SameEnd limits r r' := by
  unfold SameEnd
  rcases r.running_or_ending with hrunning | ⟨ending, hending⟩
  · rw [complete_of_running hbelow hrunning, complete_of_running hbelow' (hresult ▸ hrunning)]
    exact hpassed hrunning
  · rw [complete_of_stop hbelow hending, complete_of_stop hbelow' (hresult ▸ hending)]
    exact ⟨hstepped, rfl⟩

/-- Runs in step come to the same end. -/
theorem InStep.sameEnd {Related : Run → Run → Prop} (h : InStep limits Related)
    (hrelated : Related r r') : SameEnd limits r r' := by
  -- induction on the ticks up to the limit; both runs have the same clock
  generalize hn : limits.ticks - r.machine.tick = n
  induction n generalizing r r' with
  | zero =>
    have htick := tick_of_shown (h.shown hrelated)
    have hlimit := Nat.sub_eq_zero_iff_le.1 hn
    unfold SameEnd
    rw [complete_of_limit hlimit, complete_of_limit (htick ▸ hlimit)]
    exact ⟨h.shown hrelated, rfl⟩
  | succ n ih =>
    have htick := tick_of_shown (h.shown hrelated)
    have hbelow : r.machine.tick < limits.ticks := by omega
    obtain ⟨hresult, hstepped⟩ := h.tick hrelated hbelow
    refine .tick hbelow (htick ▸ hbelow) hresult hstepped fun hrunning => ?_
    refine ih (h.passed hrelated hbelow hrunning) ?_
    rw [passed_tick]
    omega

/-- The result of a run is part of what it shows. -/
theorem SameEnd.simulate_eq {image image' : Image} {arrivals arrivals' : List Arrival}
    (h : SameEnd limits (Run.start image arrivals) (Run.start image' arrivals')) :
    simulate image arrivals limits = simulate image' arrivals' limits := by
  obtain ⟨hshown, hending⟩ := h
  rw [Run.simulate_eq, Run.simulate_eq, hending]
  cases ((Run.start image' arrivals').complete limits).2 with
  | failed f => rfl
  | stopped reason => exact congrArg (fun r => Except.ok (r.report reason)) hshown

section Secluded

theorem prepare_shown (r : Run) : r.prepare.shown = r.shown.countInstruction := by
  obtain ⟨pending, arrivals, hprepare⟩ := r.prepare_eq
  have hphase : r.shown.machine.phase = r.machine.phase := rfl
  rw [hprepare, countInstruction, hphase]
  split
  · rfl
  · rfl

theorem record_shown (limits : Limits) (r : Run) :
    (r.record limits).shown = r.shown.record limits := by
  have htick : r.shown.machine.tick = r.machine.tick := rfl
  rw [record, record, htick]
  split
  · rfl
  · rfl

theorem passed_shown (hstepped : r.stepped.shown = r'.stepped.shown) :
    (r.passed limits).shown = (r'.passed limits).shown := by
  have hrecord : (r.stepped.record limits).shown = (r'.stepped.record limits).shown := by
    rw [record_shown, record_shown, hstepped]
  exact congrArg advance hrecord

/-- Runs that have shown the same show the same in a tick in which both machines are secluded. -/
theorem tick_of_secluded (hshown : r.shown = r'.shown) (hr : r.prepare.machine.Secluded)
    (hr' : r'.prepare.machine.Secluded) :
    r.upcoming.result = r'.upcoming.result ∧ r.stepped.shown = r'.stepped.shown := by
  have hprepare : r.prepare.shown = r'.prepare.shown := by
    rw [prepare_shown, prepare_shown, hshown]
  have hmachine : r.prepare.machine.facing none none = r'.prepare.machine.facing none none :=
    congrArg Run.machine hprepare
  have hstep : r.upcoming.facing none none = r'.upcoming.facing none none := by
    have hfacing := Machine.step_facing hr (Machine.secluded_facing_none _ none)
    rw [hmachine, Machine.step_facing hr' (Machine.secluded_facing_none _ none)] at hfacing
    exact hfacing.symm
  have hresult : r.upcoming.result = r'.upcoming.result :=
    (congrArg Step.result hstep :)
  have hstepped (r : Run) : r.stepped.shown =
      r.prepare.shown.observe (r.upcoming.facing none none) := rfl
  rw [hstepped, hstepped, hprepare, hstep]
  exact ⟨hresult, rfl⟩

/-- Runs whose machines are secluded in every tick stay in step once they have shown the same. -/
theorem inStep_of_secluded {Property : Run → Prop}
    (hsecluded : ∀ r, Property r → r.prepare.machine.Secluded)
    (hpassed : ∀ r, Property r → Property (r.passed limits)) :
    InStep limits fun r r' => r.shown = r'.shown ∧ Property r ∧ Property r' where
  shown := by
    rintro r r' ⟨hshown, -, -⟩
    exact hshown
  tick := by
    rintro r r' ⟨hshown, hr, hr'⟩ -
    exact tick_of_secluded hshown (hsecluded r hr) (hsecluded r' hr')
  passed := by
    rintro r r' ⟨hshown, hr, hr'⟩ - -
    have hstepped := (tick_of_secluded hshown (hsecluded r hr) (hsecluded r' hr')).2
    exact ⟨passed_shown hstepped, hpassed r hr, hpassed r' hr'⟩

end Secluded

section Awaiting

theorem deliver_of_quiet (hquiet : ∀ a ∈ r.arrivals.head?, r.machine.tick < a.tick) :
    r.deliver = r := by
  unfold deliver
  split
  next => rfl
  next a rest harrivals =>
    have ha := hquiet a (by rw [harrivals]; rfl)
    rw [if_neg (Nat.not_le_of_lt ha)]

theorem deliver_of_late (hlate : ∀ a ∈ r.arrivals, r.machine.tick < a.tick) : r.deliver = r :=
  deliver_of_quiet fun a ha => hlate a (List.mem_of_mem_head? ha)

theorem deliver_of_nil (harrivals : r.arrivals = []) : r.deliver = r :=
  deliver_of_quiet (by simp [harrivals])

/-- Runs that wait for different arrivals and get the same one take the same tick. -/
theorem tick_of_awaiting (limits : Limits) {others rest : List Arrival}
    (hdeliver : (r.awaiting others).deliver = r.deliver.awaiting rest) :
    (r.awaiting others).upcoming = r.upcoming ∧
      (r.awaiting others).stepped = r.stepped.awaiting rest ∧
        (r.awaiting others).passed limits = (r.passed limits).awaiting rest := by
  have hcount (r : Run) :
      (r.awaiting rest).countInstruction = r.countInstruction.awaiting rest := by
    by_cases hphase : r.machine.phase = .fetch
    · simp only [countInstruction, awaiting, hphase, if_true]
    · simp only [countInstruction, awaiting, hphase, if_false]
  have hrecord (r : Run) : (r.awaiting rest).record limits = (r.record limits).awaiting rest := by
    by_cases htick : r.machine.tick < limits.trace
    · simp only [record, awaiting, htick, if_true]
    · simp only [record, awaiting, htick, if_false]
  have hprepare : (r.awaiting others).prepare = r.prepare.awaiting rest := by
    rw [prepare, hdeliver, hcount]
    rfl
  have hupcoming : (r.awaiting others).upcoming = r.upcoming := by
    rw [upcoming, hprepare]
    rfl
  have hstepped : (r.awaiting others).stepped = r.stepped.awaiting rest := by
    rw [stepped, hprepare, hupcoming]
    rfl
  refine ⟨hupcoming, hstepped, ?_⟩
  rw [passed, hstepped, hrecord]
  rfl

end Awaiting

end Accumulator.Run
